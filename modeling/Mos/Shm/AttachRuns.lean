import Mos.Shm.Attach
import Mathlib.Data.List.Count

/-!
# Counting attachments

As long as nobody forks with a segment attached, exits with one or maps over one, the attachments in the table are
what the address spaces have attached, one by one, and the counts of the segments are right (`Inv`).
-/

namespace Mos.Shm

open Lib Vm Function List State Attach

variable {arch : Kmalloc.Arch} {s s' : State} {g : Segment}

def Attach.mapping (space : Nat → Option Nat) (r : Attach) : Mapping :=
    ⟨(space r.owner).getD 0, r.addr, r.size, r.shmid⟩

def Apart (m m' : Mapping) : Prop := m.space = m'.space → meet m.addr m.size m'.addr m'.size = false

/-- The attachments of tasks to the segments with the given numbers. -/
structure Attached (space : Nat → Option Nat) (ids : List Nat) (attaches : List Attach) (maps : List Mapping) :
    Prop where
  eq : maps = attaches.map (Attach.mapping space)
  apart : maps.Pairwise Apart
  record : ∀ r ∈ attaches, (space r.owner).isSome = true ∧ 0 < r.size ∧ r.shmid ∈ ids

structure Inv (s : State) : Prop where
  keyed : Keyed Segment.shmid s.segs
  segment : ∀ g ∈ s.segs, g.shmid < s.nextId ∧ 0 < g.size
  attached : Attached s.space (s.segs.map Segment.shmid) s.attaches s.maps
  count : ∀ g ∈ s.segs, g.attachCount = s.attaches.countP fun r => r.shmid = g.shmid
  removed : ∀ g ∈ s.segs, g.removed = true → 0 < g.attachCount
  held : s.held.Perm (s.segs.flatMap Segment.frames)

private theorem init_inv (space : Nat → Option Nat) (ns : Nat → Nat) : Inv (.init space ns) := by
  have hs : ∀ g, g ∉ (init space ns).segs := fun g => not_mem_nil
  have ha : ∀ r, r ∉ (init space ns).attaches := fun r => not_mem_nil
  exact ⟨nodup_nil, fun g hg => absurd hg (hs g), ⟨rfl, .nil, fun r hr => absurd hr (ha r)⟩,
    fun g hg => absurd hg (hs g), fun g hg => absurd hg (hs g), .nil⟩

variable {size shmid i : Nat} {attaches : List Attach} {maps : List Mapping}

private theorem meet_self (addr : Nat) (h : 0 < size) : meet addr size addr size = true := by
  simp [meet, h]

private theorem meet_comm (addr size addr' size' : Nat) :
    meet addr size addr' size' = meet addr' size' addr size := by
  simp [meet, Bool.and_comm]

instance : Std.Symm Apart where
  symm m m' h heq := by
    rw [meet_comm]
    exact h heq.symm

private theorem idsFind_some (h : s.idsFind shmid = some g) : g ∈ s.segs ∧ g.shmid = shmid :=
  ⟨mem_of_find?_eq_some h, by simpa using find?_some h⟩

private theorem idsFind_of_mem (h : Keyed Segment.shmid s.segs) (hg : g ∈ s.segs) : s.idsFind g.shmid = some g := by
  cases hfind : s.idsFind g.shmid with
  | none =>
    have := find?_eq_none.1 hfind g hg
    simp at this
  | some g' =>
    obtain ⟨hg', hid⟩ := idsFind_some hfind
    rw [h.eq_of_mem hg' hg hid]

section

variable (h : Inv s) (hg : g ∈ s.segs) (hatt : Attached s.space (s.segs.map Segment.shmid) attaches maps)
  (hothers : ∀ x ∈ s.segs, x.shmid ≠ g.shmid →
    (attaches.countP fun r => r.shmid = x.shmid) = s.attaches.countP fun r => r.shmid = x.shmid)

include h hg hatt hothers

theorem Inv.replace (g' : Segment) (added : List Nat) (hid : g'.shmid = g.shmid) (hsize : g'.size = g.size)
    (hframes : g'.frames.Perm (added ++ g.frames))
    (hcount : g'.attachCount = attaches.countP fun r => r.shmid = g.shmid)
    (hremoved : g'.removed = true → 0 < g'.attachCount) :
    Inv { s with segs := replaceKey Segment.shmid s.segs g', held := added ++ s.held, attaches := attaches, maps :=
    maps } := by
  have hmem : ∀ x ∈ replaceKey Segment.shmid s.segs g', x = g' ∨ x ∈ s.segs ∧ x.shmid ≠ g.shmid := by
    intro x hx
    rw [← hid]
    exact (mem_replaceKey ⟨g, hg, hid.symm⟩).mp hx
  constructor
  · exact h.keyed.replace g'
  · intro x hx
    rcases hmem x hx with rfl | ⟨hx, -⟩
    · rw [hid, hsize]
      exact h.segment g hg
    · exact h.segment x hx
  · show Attached s.space ((replaceKey Segment.shmid s.segs g').map Segment.shmid) attaches maps
    rw [keys_replaceKey]
    exact hatt
  · intro x hx
    rcases hmem x hx with rfl | ⟨hx, hne⟩
    · rw [hcount, hid]
    · rw [h.count x hx, ← hothers x hx hne]
  · intro x hx hrem
    rcases hmem x hx with rfl | ⟨hx, -⟩
    · exact hremoved hrem
    · exact h.removed x hx hrem
  · obtain ⟨l1, l2, hl, hrep, -⟩ := h.keyed.split hg
    have hheld := h.held
    show (added ++ s.held).Perm ((replaceKey Segment.shmid s.segs g').flatMap Segment.frames)
    rw [hrep g' hid]
    rw [hl] at hheld
    simp only [flatMap_append, flatMap_cons] at hheld ⊢
    rw [perm_iff_count] at hheld hframes ⊢
    intro p
    have h1 := hheld p
    have h2 := hframes p
    simp at h1 h2 ⊢
    omega

theorem Inv.destroy (hnone : (attaches.countP fun r => r.shmid = g.shmid) = 0) :
    Inv { s with
      segs := removeKey Segment.shmid s.segs g.shmid, held := s.held.diff g.frames, attaches := attaches, maps :=
      maps } := by
  constructor
  · exact h.keyed.remove g.shmid
  · intro x hx
    exact h.segment x (mem_removeKey.1 hx).1
  · refine { hatt with record := ?_ }
    intro r hr
    obtain ⟨hlive, hpos, hid⟩ := hatt.record r hr
    refine ⟨hlive, hpos, ?_⟩
    obtain ⟨x, hx, hxr⟩ := mem_map.1 hid
    refine mem_map.2 ⟨x, mem_removeKey.2 ⟨hx, ?_⟩, hxr⟩
    intro hxg
    have hr' := countP_eq_zero.1 hnone r hr
    simp [← hxr, hxg] at hr'
  · intro x hx
    obtain ⟨hx, hne⟩ := mem_removeKey.1 hx
    rw [h.count x hx, ← hothers x hx hne]
  · intro x hx
    exact h.removed x (mem_removeKey.1 hx).1
  · obtain ⟨l1, l2, hl, -, hrem⟩ := h.keyed.split hg
    have hheld := h.held
    show (s.held.diff g.frames).Perm ((removeKey Segment.shmid s.segs g.shmid).flatMap Segment.frames)
    rw [hrem]
    rw [hl] at hheld
    simp only [flatMap_append, flatMap_cons] at hheld ⊢
    rw [perm_iff_count] at hheld ⊢
    intro p
    have h1 := hheld p
    simp [count_diff] at h1 ⊢
    omega

end

private theorem frames_set {pages : List (Option Nat)} {p : Nat} (hi : pages[i]? = some none) :
    ((pages.set i (some p)).filterMap id).Perm (p :: pages.filterMap id) := by
  induction pages generalizing i with
  | nil => simp at hi
  | cons x pages ih =>
    cases i with
    | zero =>
      have hx : x = none := by simpa using hi
      simp [hx]
    | succ i =>
      have hperm := ih (by simpa using hi)
      cases x with
      | none => simpa using hperm
      | some q =>
        simp only [set_cons_succ, filterMap_cons, id]
        exact (hperm.cons q).trans (.swap p q _)

/-- What `mos_shm_map_pages` leaves alone. -/
structure Mapped (s : State) (g : Segment) (s' : State) (g' : Segment) : Prop where
  attaches : s'.attaches = s.attaches
  maps : s'.maps = s.maps
  space : s'.space = s.space
  mem : g' ∈ s'.segs
  shmid : g'.shmid = g.shmid
  size : g'.size = g.size
  attachCount : g'.attachCount = g.attachCount
  removed : g'.removed = g.removed
  /-- Every segment is still there. -/
  kept : ∀ x ∈ s.segs, ∃ x' ∈ s'.segs, x'.shmid = x.shmid ∧ x'.removed = x.removed

theorem Mapped.refl (hg : g ∈ s.segs) : Mapped s g s g :=
  ⟨rfl, rfl, rfl, hg, rfl, rfl, rfl, rfl, fun x hx => ⟨x, hx, rfl, rfl⟩⟩

theorem Mapped.trans {g' g'' : Segment} {s'' : State} (h : Mapped s g s' g') (h' : Mapped s' g' s'' g'') :
    Mapped s g s'' g'' where
  attaches := h'.attaches.trans h.attaches
  maps := h'.maps.trans h.maps
  space := h'.space.trans h.space
  mem := h'.mem
  shmid := h'.shmid.trans h.shmid
  size := h'.size.trans h.size
  attachCount := h'.attachCount.trans h.attachCount
  removed := h'.removed.trans h.removed
  kept x hx := by
    obtain ⟨x', hx', hid, hrem⟩ := h.kept x hx
    obtain ⟨x'', hx'', hid', hrem'⟩ := h'.kept x' hx'
    exact ⟨x'', hx'', hid'.trans hid, hrem'.trans hrem⟩

private theorem ensurePage_spec (h : Inv s) (hg : g ∈ s.segs) {grant : Option Nat} {g' : Segment}
    (hensure : ensurePage s g i grant = some (s', g')) : Inv s' ∧ Mapped s g s' g' := by
  unfold ensurePage at hensure
  split at hensure
  · cases hensure
  · cases hensure
    exact ⟨h, .refl hg⟩
  rename_i hi
  obtain ⟨p, -, heq⟩ := Option.map_eq_some_iff.1 hensure
  obtain ⟨rfl, rfl⟩ := Prod.mk.inj heq
  constructor
  · exact h.replace hg h.attached (fun _ _ _ => rfl) { g with pages := g.pages.set i (some p) }
      [p] rfl rfl (frames_set hi) (h.count g hg) (h.removed g hg)
  · refine ⟨rfl, rfl, rfl, ?_, rfl, rfl, rfl, rfl, h.keyed.forall_replace hg rfl rfl fun _ _ _ => rfl⟩
    apply (mem_replaceKey _).mpr (.inl rfl)
    exact ⟨g, hg, rfl⟩

private theorem mapPages_spec (grants : Nat → Option Nat) (mapOk : Nat → Bool) (l : List Nat) (h : Inv s)
    (hg : g ∈ s.segs) :
    ∃ g', Inv (mapPages grants mapOk l s g).1 ∧ Mapped s g (mapPages grants mapOk l s g).1 g' := by
  induction l generalizing s g with
  | nil => exact ⟨g, h, .refl hg⟩
  | cons i l ih =>
    rw [mapPages]
    split
    · exact ⟨g, h, .refl hg⟩
    rename_i s1 g1 hensure
    obtain ⟨h1, hm1⟩ := ensurePage_spec h hg hensure
    split
    · obtain ⟨g', h', hm'⟩ := ih h1 hm1.mem
      exact ⟨g', h', hm1.trans hm'⟩
    · exact ⟨g1, h1, hm1⟩

/-! ### Attachments -/

variable {a : Nat} {r : Attach}

section attached

variable {space space' : Nat → Option Nat} {ids : List Nat} {attaches : List Attach} {maps : List Mapping}

section

variable (h : Attached space ids attaches maps)

include h

theorem Attached.congr (hspace : ∀ r ∈ attaches, space' r.owner = space r.owner) :
    Attached space' ids attaches maps := by
  refine ⟨?_, h.apart, ?_⟩
  · rw [h.eq]
    apply map_congr_left
    intro r hr
    rw [mapping, mapping, hspace r hr]
  · intro r hr
    rw [hspace r hr]
    exact h.record r hr

theorem Attached.cons (ha : space r.owner = some a) (hpos : 0 < r.size) (hid : r.shmid ∈ ids)
    (hfree : ∀ m ∈ maps, m.space = a → meet m.addr m.size r.addr r.size = false) :
    Attached space ids (r :: attaches) (⟨a, r.addr, r.size, r.shmid⟩ :: maps) := by
  constructor
  · rw [map_cons, ← h.eq, mapping, ha]
    rfl
  · rw [pairwise_cons]
    refine ⟨?_, h.apart⟩
    intro m hm hspace
    rw [meet_comm]
    exact hfree m hm hspace.symm
  · exact forall_mem_cons.2 ⟨⟨by rw [ha]; rfl, hpos, hid⟩, h.record⟩

theorem Attached.of_mem {m : Mapping} (hm : m ∈ maps) : ∃ r ∈ attaches, r.mapping space = m :=
  mem_map.1 (h.eq ▸ hm)

theorem Attached.size_pos {m : Mapping} (hm : m ∈ maps) : 0 < m.size := by
  obtain ⟨r, hr, rfl⟩ := h.of_mem hm
  exact (h.record r hr).2.1

theorem Attached.nodup : maps.Nodup := by
  refine h.apart.imp_of_mem fun {m m'} hm _ hapart heq => ?_
  rw [← heq] at hapart
  have hself := meet_self m.addr (h.size_pos hm)
  exact absurd (hself.symm.trans (hapart rfl)) (by decide)

theorem Attached.meets {x : Attach} (hr : r ∈ attaches) (hx : x ∈ attaches)
    (hspace : (x.mapping space).space = (r.mapping space).space) (hmeet : meet x.addr x.size r.addr r.size = true) :
    x = r := by
  have hmem : ∀ y ∈ attaches, y.mapping space ∈ maps := fun y hy => h.eq ▸ mem_map_of_mem hy
  have hnd := h.nodup
  rw [h.eq] at hnd
  apply inj_on_of_nodup_map hnd hx hr
  by_contra hne
  have := h.apart.forall (hmem x hx) (hmem r hr) hne hspace
  exact absurd (hmeet.symm.trans this) (by decide)

theorem Attached.erase (hr : r ∈ attaches) (ha : space r.owner = some a) : Attached space ids (attaches.erase r)
      (maps.filter fun m => !(m.space = a && meet m.addr m.size r.addr r.size)) := by
  have hnd : attaches.Nodup := Nodup.of_map _ (h.eq ▸ h.nodup)
  refine ⟨?_, h.apart.sublist filter_sublist, fun x hx => h.record x (mem_of_mem_erase hx)⟩
  rw [hnd.erase_eq_filter, h.eq, filter_map]
  congr 1
  apply filter_congr
  intro x hx
  have hspace : (r.mapping space).space = a := by simp [mapping, ha]
  by_cases hxr : x = r
  · subst hxr
    simp [hspace, show meet (x.mapping space).addr (x.mapping space).size x.addr x.size = true from
      meet_self _ (h.record x hx).2.1]
  have hno : (decide ((x.mapping space).space = a) && meet x.addr x.size r.addr r.size) = false := by
    rw [Bool.eq_false_iff]
    intro hboth
    rw [Bool.and_eq_true, decide_eq_true_eq] at hboth
    exact hxr (h.meets hr hx (hboth.1.trans hspace.symm) hboth.2)
  rw [bne_iff_ne.2 hxr]
  exact congrArg not hno

end

end attached

/-! ### The calls -/

/-- A new segment has a size that fits and a number that is left, and a fork, the exit of a task or a mapping at a
fixed address does not concern an attached segment. -/
def Op.Meets (arch : Kmalloc.Arch) (s : State) (a : Nat) : Op → Prop
  | .shmget _ _ size _ _ _ => CreateFits arch size ∧ s.nextId < 2 ^ 31 - 1
  | .shmat _ shmid shmaddr rnd _ => ∀ addr, fixedAddr shmaddr rnd = some addr →
      ∀ g ∈ s.segs, g.shmid = shmid → s.Free a addr g.size
  | .fork _ _ _ => ∀ m ∈ s.maps, m.space ≠ a
  | .exit t _ => ∀ r ∈ s.attaches, r.owner ≠ t
  | _ => True

/-- The segment is removed, or the call removes it. -/
def Removes (s : State) (op : Op) (g : Segment) : Prop :=
  g.removed = true ∨ ∃ t, op = .shmctl t g.shmid .rmid ∧ s.ns t = g.ns

/-- A segment stays in the table, or it is removed and released. -/
def Keeps (s : State) (op : Op) (s' : State) : Prop := ∀ g ∈ s.segs,
  (∃ g' ∈ s'.segs, g'.shmid = g.shmid ∧ (Removes s op g → g'.removed = true)) ∨
    Removes s op g ∧ ∀ g' ∈ s'.segs, g'.shmid ≠ g.shmid

variable {op : Op} {t a : Nat}

private theorem keeps_of_kept (hop : ∀ t shmid, op ≠ .shmctl t shmid .rmid)
    (h : ∀ g ∈ s.segs, ∃ g' ∈ s'.segs, g'.shmid = g.shmid ∧ g'.removed = g.removed) : Keeps s op s' := by
  intro g hg
  obtain ⟨g', hg', hid, hrem⟩ := h g hg
  refine .inl ⟨g', hg', hid, fun hr => ?_⟩
  rcases hr with hr | ⟨t, heq, -⟩
  · rw [hrem]
    exact hr
  · exact absurd heq (hop t g.shmid)

private theorem keeps_of_segs (hop : ∀ t shmid, op ≠ .shmctl t shmid .rmid) (h : s'.segs = s.segs) : Keeps s op s' :=
  keeps_of_kept hop fun g hg => ⟨g, h ▸ hg, rfl, rfl⟩

private theorem create_size_pos {alloc slot : Bool} {z : Sizes} (h : mosShmCreate arch size alloc slot = .ok z) :
    0 < z.size := by
  simp only [mosShmCreate] at h
  split_ifs at h with h1 h2 h3
  · cases h
    exact (by decide : 0 < pageSize)
  · cases h
    exact Nat.pos_of_ne_zero h3

private theorem shmget_spec (h : Inv s) (key : Int) (size : Nat) (creat excl alloc : Bool) :
    Inv (sysShmget arch s t key size creat excl alloc).2 ∧
      Keeps s (.shmget t key size creat excl alloc) (sysShmget arch s t key size creat excl alloc).2 := by
  have hself : Inv s ∧ Keeps s (.shmget t key size creat excl alloc) s := ⟨h, keeps_of_segs (by simp) rfl⟩
  unfold sysShmget
  split
  · exact hself
  split
  · split_ifs <;> exact hself
  split_ifs
  · exact hself
  split
  · exact hself
  rename_i z hz
  refine ⟨?_, keeps_of_kept (by simp) fun g hg => ⟨g, mem_cons_of_mem _ hg, rfl, rfl⟩⟩
  have hnew : s.nextId ∉ s.segs.map Segment.shmid := by
    intro hmem
    obtain ⟨g, hg, hid⟩ := mem_map.1 hmem
    have := (h.segment g hg).1
    omega
  constructor
  · exact nodup_cons.2 ⟨hnew, h.keyed⟩
  · intro g hg
    rcases mem_cons.1 hg with rfl | hg
    · exact ⟨Nat.lt_succ_self _, create_size_pos hz⟩
    · exact ⟨Nat.lt_succ_of_lt (h.segment g hg).1, (h.segment g hg).2⟩
  · refine { h.attached with record := ?_ }
    intro r hr
    obtain ⟨hlive, hpos, hid⟩ := h.attached.record r hr
    exact ⟨hlive, hpos, mem_cons_of_mem _ hid⟩
  · intro g hg
    rcases mem_cons.1 hg with rfl | hg
    · symm
      apply countP_eq_zero.2
      intro r hr heq
      have hid : r.shmid = s.nextId := by simpa using heq
      exact hnew (hid ▸ (h.attached.record r hr).2.2)
    · exact h.count g hg
  · intro g hg hrem
    rcases mem_cons.1 hg with rfl | hg
    · cases hrem
    · exact h.removed g hg hrem
  · simpa [Segment.frames] using h.held

variable {addr shmaddr c : Nat} {rnd : Bool} {env : AtEnv}

private theorem unmap_of_free (h : s.Free a addr size) : s.unmap a addr size = s := by
  have : s.maps.filter (fun m => !(m.space = a && meet m.addr m.size addr size)) = s.maps := by
    apply filter_eq_self.2
    intro m hm
    by_cases hspace : m.space = a
    · simp [h m hm hspace]
    · simp [hspace]
  rw [unmap, this]

private theorem shmat_free {mapped : Nat}
    (hvalid : Op.Valid s a (.shmat t shmid shmaddr rnd env))
    (hmeets : Op.Meets arch s a (.shmat t shmid shmaddr rnd env))
    (hmapped : env.mapped = .ok mapped) (hg : g ∈ s.segs) (hid : g.shmid = shmid) : s.Free a mapped g.size := by
  have hv := hvalid mapped hmapped
  cases hfixed : fixedAddr shmaddr rnd with
  | none =>
    rw [hfixed] at hv
    exact hv g hg hid
  | some addr =>
    rw [hfixed] at hv
    rw [show mapped = addr from hv]
    exact hmeets addr hfixed g hg hid

private theorem shmat_spec (h : Inv s) (ha : s.space t = some a)
    (hvalid : Op.Valid s a (.shmat t shmid shmaddr rnd env))
    (hmeets : Op.Meets arch s a (.shmat t shmid shmaddr rnd env)) :
    Inv (mosShmat s t a shmid shmaddr rnd env).2 ∧
      Keeps s (.shmat t shmid shmaddr rnd env) (mosShmat s t a shmid shmaddr rnd env).2 := by
  have hop : ∀ t' i, Op.shmat t shmid shmaddr rnd env ≠ .shmctl t' i .rmid := by simp
  have hself : Inv s ∧ Keeps s (.shmat t shmid shmaddr rnd env) s := ⟨h, keeps_of_segs hop rfl⟩
  unfold mosShmat
  split
  · exact hself
  split
  · exact hself
  rename_i g hfind
  obtain ⟨hg, hid⟩ := idsFind_some hfind
  split_ifs
  · exact hself
  · exact hself
  split
  · exact hself
  rename_i mapped hmapped
  have hfree := shmat_free hvalid hmeets hmapped hg hid
  dsimp only
  rw [unmap_of_free hfree]
  obtain ⟨g', hinv, hm⟩ := mapPages_spec env.grants env.mapOk (range (g.size / pageSize)) h hg
  split
  · rename_i s1 hpages
    rw [hpages] at hinv hm
    exact ⟨hinv, keeps_of_kept hop hm.kept⟩
  rename_i s1 hpages
  rw [hpages] at hinv hm
  have hfind' : s1.idsFind shmid = some g' := by
    rw [← hid, ← hm.shmid]
    exact idsFind_of_mem hinv.keyed hm.mem
  rw [hfind']
  refine ⟨?_, ?_⟩
  · have hatt : Attached s1.space (s1.segs.map Segment.shmid) (⟨shmid, t, mapped, g'.size⟩ :: s1.attaches)
        (⟨a, mapped, g'.size, shmid⟩ :: s1.maps) := by
      apply hinv.attached.cons
      · rw [hm.space]
        exact ha
      · exact (hinv.segment g' hm.mem).2
      · exact mem_map.2 ⟨g', hm.mem, hm.shmid.trans hid⟩
      · rw [hm.maps, hm.size]
        exact hfree
    refine hinv.replace hm.mem hatt ?_ { g' with attachCount := g'.attachCount + 1 } [] rfl rfl (.refl _) ?_ ?_
    · intro x _ hne
      apply countP_cons_of_neg
      simpa [← hid, ← hm.shmid] using Ne.symm hne
    · rw [countP_cons_of_pos (by simp [hm.shmid, hid])]
      exact congrArg (· + 1) (hinv.count g' hm.mem)
    · intro _
      exact Nat.succ_pos _
  · apply keeps_of_kept hop
    intro x hx
    obtain ⟨x', hx', hxid, hxrem⟩ := hm.kept x hx
    obtain ⟨y, hy, hyid, hyrem⟩ := hinv.keyed.forall_replace (y := { g' with attachCount := g'.attachCount + 1 })
      (P := fun z z' => z'.removed = z.removed) hm.mem rfl rfl (fun _ _ _ => rfl) x' hx'
    exact ⟨y, hy, hyid.trans hxid, hyrem.trans hxrem⟩

private theorem destroy_setSegment (s : State) (g : Segment) :
    (s.setSegment g).destroySegment g = s.destroySegment g := by
  rw [destroySegment, destroySegment, setSegment, removeKey_replaceKey]

private theorem keeps_destroy (hkeyed : Keyed Segment.shmid s.segs) (hg : g ∈ s.segs)
    (hsegs : s'.segs = removeKey Segment.shmid s.segs g.shmid) (hrem : Removes s op g)
    (hothers : ∀ x ∈ s.segs, x.shmid ≠ g.shmid → Removes s op x → x.removed = true) : Keeps s op s' := by
  intro x hx
  by_cases hxg : x.shmid = g.shmid
  · rw [hkeyed.eq_of_mem hx hg hxg]
    refine .inr ⟨hrem, fun y hy => ?_⟩
    rw [hsegs] at hy
    exact (mem_removeKey.1 hy).2
  · refine .inl ⟨x, ?_, rfl, hothers x hx hxg⟩
    rw [hsegs]
    exact mem_removeKey.2 ⟨hx, hxg⟩

private theorem removes_of_ne (hop : ∀ t shmid, op ≠ .shmctl t shmid .rmid) (h : Removes s op g) :
    g.removed = true := by
  rcases h with h | ⟨t, heq, -⟩
  · exact h
  · exact absurd heq (hop t g.shmid)

section

variable (h : Inv s)

include h

private theorem shmdt_spec (ha : s.space t = some a) :
    Inv (sysShmdt s t a addr).2 ∧ Keeps s (.shmdt t addr) (sysShmdt s t a addr).2 := by
  have hop : ∀ t' i, Op.shmdt t addr ≠ .shmctl t' i .rmid := by simp
  unfold sysShmdt
  split
  · exact ⟨h, keeps_of_segs hop rfl⟩
  rename_i r hfind
  have hr : r ∈ s.attaches := mem_of_find?_eq_some hfind
  obtain ⟨howner, haddr⟩ : r.owner = t ∧ r.addr = addr := by simpa using find?_some hfind
  subst howner haddr
  obtain ⟨-, hpos, hid⟩ := h.attached.record r hr
  obtain ⟨g, hg, hgr⟩ := mem_map.1 hid
  have hgfind : idsFind { s with attaches := s.attaches.erase r } r.shmid = some g := by
    rw [← hgr]
    exact idsFind_of_mem h.keyed hg
  have hatt := h.attached.erase hr ha
  have hcount : ∀ x : Segment, ((s.attaches.erase r).countP fun y => y.shmid = x.shmid) =
      (s.attaches.countP fun y => y.shmid = x.shmid) - if r.shmid = x.shmid then 1 else 0 := by
    intro x
    rw [countP_erase]
    simp [hr]
  have hothers : ∀ x ∈ s.segs, x.shmid ≠ g.shmid → ((s.attaches.erase r).countP fun y => y.shmid = x.shmid) =
      s.attaches.countP fun y => y.shmid = x.shmid := by
    intro x _ hne
    rw [hcount x, if_neg (fun heq => hne (heq.symm.trans hgr.symm))]
    rfl
  have hown : g.attachCount - 1 = (s.attaches.erase r).countP fun y => y.shmid = g.shmid := by
    rw [hcount g, if_pos hgr.symm, h.count g hg]
  rw [if_neg (Nat.ne_of_gt hpos), hgfind]
  dsimp only
  split_ifs with hlast
  · rw [destroy_setSegment]
    have hinv := h.destroy hg hatt hothers (hown ▸ hlast.2)
    exact ⟨hinv, keeps_destroy h.keyed hg rfl (.inl hlast.1) fun x _ _ => removes_of_ne hop⟩
  · refine ⟨h.replace hg hatt hothers { g with attachCount := g.attachCount - 1 } [] rfl rfl (.refl _) hown ?_, ?_⟩
    · intro hrem
      exact Nat.pos_of_ne_zero fun hzero => hlast ⟨hrem, hzero⟩
    · exact keeps_of_kept hop (h.keyed.forall_replace hg rfl rfl fun _ _ _ => rfl)

private theorem shmctl_spec {cmd : Cmd} :
    Inv (psShmctl s t shmid cmd).2 ∧ Keeps s (.shmctl t shmid cmd) (psShmctl s t shmid cmd).2 := by
  unfold psShmctl
  split
  · rename_i hfind
    refine ⟨h, fun g hg => .inl ⟨g, hg, rfl, fun hrem => ?_⟩⟩
    rcases hrem with hrem | ⟨t', heq, -⟩
    · exact hrem
    · cases heq
      rw [idsFind_of_mem h.keyed hg] at hfind
      cases hfind
  rename_i g hfind
  obtain ⟨hg, hid⟩ := idsFind_some hfind
  have hothers : ∀ x ∈ s.segs, x.shmid ≠ g.shmid → Removes s (.shmctl t shmid cmd) x → x.removed = true := by
    intro x _ hne hrem
    rcases hrem with hrem | ⟨t', heq, -⟩
    · exact hrem
    · cases heq
      exact absurd hid.symm hne
  split_ifs with hns
  · refine ⟨h, fun x hx => .inl ⟨x, hx, rfl, fun hrem => ?_⟩⟩
    rcases hrem with hrem | ⟨t', heq, hns'⟩
    · exact hrem
    · cases heq
      rw [h.keyed.eq_of_mem hx hg hid.symm] at hns'
      exact absurd hns'.symm hns
  cases cmd with
  | stat buf | other => exact ⟨h, keeps_of_segs (by simp) rfl⟩
  | rmid =>
    have hrem : Removes s (.shmctl t shmid .rmid) g := .inr ⟨t, by rw [hid], (not_not.1 hns).symm⟩
    dsimp only [shmRemove]
    split_ifs with hzero
    · rw [destroy_setSegment]
      have hinv := h.destroy hg h.attached (fun _ _ _ => rfl) ((h.count g hg).symm.trans hzero)
      exact ⟨hinv, keeps_destroy h.keyed hg rfl hrem hothers⟩
    refine ⟨h.replace hg h.attached (fun _ _ _ => rfl) { g with removed := true } [] rfl rfl (.refl _) (h.count g hg)
      (fun _ => Nat.pos_of_ne_zero hzero), ?_⟩
    have hkept := h.keyed.forall_replace (y := { g with removed := true })
      (P := fun x x' => Removes s (.shmctl t shmid .rmid) x → x'.removed = true) hg rfl (fun _ => rfl) hothers
    exact fun x hx => .inl (hkept x hx)

theorem Inv.tasks {space : Nat → Option Nat} (ns : Nat → Nat)
    (hspace : ∀ r ∈ s.attaches, space r.owner = s.space r.owner) : Inv { s with space := space, ns := ns } :=
  { h with attached := h.attached.congr hspace }

theorem Inv.owner_ne (hc : s.space c = none) : ∀ r ∈ s.attaches, r.owner ≠ c := by
  intro r hr heq
  have := (h.attached.record r hr).1
  rw [heq, hc] at this
  cases this

private theorem fork_spec {b : Nat} (hc : s.space c = none) (hmaps : ∀ m ∈ s.maps, m.space ≠ a) :
    Inv (fork s t a c b) := by
  have hnone : (s.maps.filter fun m => m.space = a) = [] := by
    apply filter_eq_nil_iff.2
    intro m hm heq
    exact hmaps m hm (of_decide_eq_true heq)
  rw [fork, hnone]
  apply h.tasks
  intro r hr
  exact update_of_ne (h.owner_ne hc r hr) _ _

private theorem exit_spec {last : Bool} (hvalid : last = true ↔ ∀ t', t' ≠ t → s.space t' ≠ some a)
    (howner : ∀ r ∈ s.attaches, r.owner ≠ t) : Inv (exit s t a last) := by
  have hmaps : (if last then s.maps.filter fun m => m.space ≠ a else s.maps) = s.maps := by
    split_ifs with hlast
    · apply filter_eq_self.2
      intro m hm
      obtain ⟨r, hr, rfl⟩ := h.attached.of_mem hm
      obtain ⟨b, hb⟩ := Option.isSome_iff_exists.1 (h.attached.record r hr).1
      have hne := hvalid.1 hlast r.owner (howner r hr)
      rw [hb] at hne
      simpa [mapping, hb] using hne
    · rfl
  rw [exit, hmaps]
  apply h.tasks s.ns
  intro r hr
  exact update_of_ne (howner r hr) _ _

theorem Inv.step {e : Op × Int} (hstep : Step arch s e s')
    (hmeets : ∀ a, s.space e.1.task = some a → e.1.Meets arch s a) : Inv s' ∧ Keeps s e.1 s' := by
  obtain ⟨op, ret⟩ := e
  obtain ⟨a, ha, hvalid, hexec⟩ := hstep
  have hm := hmeets a ha
  have hs' : s' = (exec arch s a op).2 := by rw [hexec]
  subst hs'
  cases op with
  | shmget t key size creat excl alloc => exact shmget_spec h key size creat excl alloc
  | shmat t shmid shmaddr rnd env => exact shmat_spec h ha hvalid hm
  | shmdt t addr => exact shmdt_spec h ha
  | shmctl t shmid cmd => exact shmctl_spec h
  | fork t c b => exact ⟨fork_spec h hvalid.1 hm, keeps_of_segs (by simp) rfl⟩
  | clone t c =>
    refine ⟨h.tasks _ ?_, keeps_of_segs (by simp) rfl⟩
    intro r hr
    exact update_of_ne (h.owner_ne hvalid r hr) _ _
  | exit t last => exact ⟨exit_spec h hvalid hm, keeps_of_segs (by simp) rfl⟩

end

/-! ### Runs -/

/-- The addresses at which a segment is attached. -/
def State.pairs (s : State) (shmid : Nat) : List (Nat × Nat) :=
  (s.maps.filter fun m => m.shmid = shmid).map fun m => (m.space, m.addr)

/-- A step that keeps the counts right. -/
def GoodStep (arch : Kmalloc.Arch) (s : State) (e : Op × Int) (s' : State) : Prop :=
  Step arch s e s' ∧ ∀ a, s.space e.1.task = some a → e.1.Meets arch s a

private theorem mem_pairs : (a, addr) ∈ s.pairs shmid ↔ ∃ m ∈ s.maps, m.space = a ∧ m.addr = addr ∧
    m.shmid = shmid := by
  simp only [pairs, mem_map, mem_filter, decide_eq_true_eq, Prod.mk.injEq]
  constructor
  · intro h
    obtain ⟨m, ⟨hm, hid⟩, ha, haddr⟩ := h
    exact ⟨m, hm, ha, haddr, hid⟩
  · intro h
    obtain ⟨m, hm, ha, haddr, hid⟩ := h
    exact ⟨m, ⟨hm, hid⟩, ha, haddr⟩

theorem Inv.pairs_nodup (h : Inv s) (shmid : Nat) : (s.pairs shmid).Nodup := by
  apply Nodup.map_on _ (h.attached.nodup.filter _)
  intro m hm m' hm' heq
  obtain ⟨hspace, haddr⟩ := Prod.mk.inj heq
  have hmem := mem_of_mem_filter hm
  have hmem' := mem_of_mem_filter hm'
  by_contra hne
  have hapart := h.attached.apart.forall hmem hmem' hne hspace
  -- both are of positive size and begin at the same address
  have h1 := h.attached.size_pos hmem
  have h2 := h.attached.size_pos hmem'
  simp [meet, haddr] at hapart
  omega

theorem Inv.pairs_length (h : Inv s) (hg : g ∈ s.segs) : g.attachCount = (s.pairs g.shmid).length := by
  rw [h.count g hg, pairs, length_map, ← countP_eq_length_filter, h.attached.eq, countP_map]
  rfl

private theorem shmdt_of_find (h : Inv s) (hfind : s.addressFind t addr = some r) :
    (sysShmdt s t a addr).1 = 0 ∧ (sysShmdt s t a addr).2.maps =
      s.maps.filter fun m => !(m.space = a && meet m.addr m.size addr r.size) := by
  have hpos := (h.attached.record r (mem_of_find?_eq_some hfind)).2.1
  rw [sysShmdt, hfind]
  dsimp only
  rw [if_neg (Nat.ne_of_gt hpos)]
  refine ⟨rfl, ?_⟩
  split
  · rfl
  · split_ifs <;> rfl

private theorem addressFind_of_shmdt : (sysShmdt s t a addr).1 = 0 → ∃ r, s.addressFind t addr = some r := by
  intro hret
  cases hfind : s.addressFind t addr with
  | none =>
    rw [sysShmdt, hfind] at hret
    exact absurd hret (show einval ≠ 0 by decide)
  | some r => exact ⟨r, rfl⟩

theorem Inv.shmdt_zero_iff (h : Inv s) :
    (sysShmdt s t a addr).1 = 0 ↔ ∃ r ∈ s.attaches, r.owner = t ∧ r.addr = addr := by
  constructor
  · intro hret
    obtain ⟨r, hfind⟩ := addressFind_of_shmdt hret
    exact ⟨r, mem_of_find?_eq_some hfind, by simpa using find?_some hfind⟩
  · intro hr
    obtain ⟨r, hr, howner, haddr⟩ := hr
    cases hfind : s.addressFind t addr with
    | none =>
      have := find?_eq_none.1 hfind r hr
      simp [howner, haddr] at this
    | some r' => exact (shmdt_of_find h hfind).1

theorem Inv.shmdt_detaches (h : Inv s) (hret : (sysShmdt s t a addr).1 = 0) :
    (a, addr) ∉ (sysShmdt s t a addr).2.pairs shmid := by
  obtain ⟨r, hfind⟩ := addressFind_of_shmdt hret
  intro hmem
  obtain ⟨m, hm, rfl, rfl, -⟩ := mem_pairs.1 hmem
  rw [(shmdt_of_find h hfind).2] at hm
  obtain ⟨hm, hfilter⟩ := mem_filter.1 hm
  have hr := (h.attached.record r (mem_of_find?_eq_some hfind)).2.1
  have hmeet : meet m.addr m.size m.addr r.size = true := by simp [meet, h.attached.size_pos hm, hr]
  rw [hmeet] at hfilter
  simp at hfilter

/-- A segment leaves the table when it is removed and nobody has it attached. -/
theorem Inv.released_iff (h' : Inv s') (hkeeps : Keeps s op s') (hg : g ∈ s.segs) :
    (∀ g' ∈ s'.segs, g'.shmid ≠ g.shmid) ↔ Removes s op g ∧ s'.pairs g.shmid = [] := by
  constructor
  · intro hgone
    constructor
    · rcases hkeeps g hg with ⟨g', hg', hid, -⟩ | h
      · exact absurd hid (hgone g' hg')
      · exact h.1
    · rw [eq_nil_iff_forall_not_mem]
      intro x hx
      obtain ⟨m, hm, -, -, hid⟩ := mem_pairs.1 hx
      obtain ⟨r, hr, rfl⟩ := h'.attached.of_mem hm
      obtain ⟨g', hg', hr'⟩ := mem_map.1 (h'.attached.record r hr).2.2
      exact hgone g' hg' (hr'.trans hid)
  · intro hrem
    obtain ⟨hrem, hnone⟩ := hrem
    rcases hkeeps g hg with ⟨g', hg', hid, hremoved⟩ | h
    · have hpos := h'.removed g' hg' (hremoved hrem)
      rw [h'.pairs_length hg', hid, hnone] at hpos
      cases hpos
    · exact h.2

/-- Counts, detaching and release along every run of steps that keep the counts right. -/
theorem attach_counts_runs {space : Nat → Option Nat} {ns : Nat → Nat} {tr : List (Op × Int)}
    (hrun : Run (GoodStep arch) (.init space ns) tr s) :
    (∀ g ∈ s.segs, (s.pairs g.shmid).Nodup ∧ g.attachCount = (s.pairs g.shmid).length) ∧
    (∀ t a addr shmid, s.space t = some a → (a, addr) ∈ s.pairs shmid →
      ((sysShmdt s t a addr).1 = 0 ↔ ∃ r ∈ s.attaches, r.owner = t ∧ r.addr = addr) ∧
      ((sysShmdt s t a addr).1 = 0 → (a, addr) ∉ (sysShmdt s t a addr).2.pairs shmid)) ∧
    (∀ e s', GoodStep arch s e s' → ∀ g ∈ s.segs,
      ((∀ g' ∈ s'.segs, g'.shmid ≠ g.shmid) ↔ Removes s e.1 g ∧ s'.pairs g.shmid = [])) ∧
    s.held.Perm (s.segs.flatMap Segment.frames) := by
  have h : Inv s := hrun.invariant_state Inv (init_inv space ns) fun t e u hinv hstep => (hinv.step hstep.1 hstep.2).1
  refine ⟨?_, ?_, ?_, h.held⟩
  · intro g hg
    exact ⟨h.pairs_nodup g.shmid, h.pairs_length hg⟩
  · intro t a addr shmid _ _
    exact ⟨h.shmdt_zero_iff, h.shmdt_detaches⟩
  · intro e s' hstep g hg
    obtain ⟨h', hkeeps⟩ := h.step hstep.1 hstep.2
    exact h'.released_iff hkeeps hg

def oneTask : State := .init (fun t => if t = 1 then some 10 else none) fun _ => 0

def firstMap : AtEnv := ⟨.ok 0x40000000, fun i => some (100 + i), fun _ => true⟩

def attachedOnce : State :=
  (exec .x64 (exec .x64 oneTask 10 (.shmget 1 7 1 true false true)).2 10 (.shmat 1 1 0 false firstMap)).2

private theorem attachedOnce_run : Run (GoodStep .x64) oneTask
    [(.shmget 1 7 1 true false true, 1), (.shmat 1 1 0 false firstMap, 0x40000000)] attachedOnce := by
  refine (Run.single ⟨⟨10, rfl, trivial, rfl⟩, fun _ _ => ⟨.inl (by decide), by decide⟩⟩).snoc ⟨⟨10, rfl, ?_, rfl⟩,
    ?_⟩
  · intro mapped _ g _ _ m hm
    cases hm
  · intro a _ addr hfixed
    cases hfixed

/-- Task 1 can detach, and a removal keeps the segment until then. -/
theorem attach_counts_runs_once : (attachedOnce.pairs 1).length = 1 ∧ (sysShmdt attachedOnce 1 10 0x40000000).1 = 0 ∧
      ¬∀ g' ∈ (exec .x64 attachedOnce 10 (.shmctl 1 1 .rmid)).2.segs, g'.shmid ≠ 1 := by
  obtain ⟨hcount, hdetach, hrelease, -⟩ := attach_counts_runs attachedOnce_run
  refine ⟨(hcount _ mem_cons_self).2.symm, ?_, ?_⟩
  · exact (hdetach 1 10 0x40000000 1 rfl (by decide +kernel)).1.2 ⟨_, mem_cons_self, rfl, rfl⟩
  · intro hgone
    have := (hrelease (.shmctl 1 1 .rmid, 0) _ ⟨⟨10, rfl, trivial, rfl⟩, fun _ _ => trivial⟩ _ mem_cons_self).mp hgone
    exact absurd this.2 (by decide +kernel)

def forkedOnce : State := fork attachedOnce 1 10 2 11

private theorem forkedOnce_run : Run (Step .x64) oneTask
    [(.shmget 1 7 1 true false true, 1), (.shmat 1 1 0 false firstMap, 0x40000000),
    (.fork 1 2 11, 0)] forkedOnce := by
  have hvalid : Op.Valid attachedOnce 10 (.fork 1 2 11) := by
    refine ⟨rfl, fun t ht => ?_⟩
    have hspace : attachedOnce.space t = if t = 1 then some 10 else none := rfl
    rw [hspace] at ht
    split_ifs at ht
    cases ht
  exact (attachedOnce_run.imp fun _ _ _ _ h => h.1).snoc ⟨10, rfl, hvalid, rfl⟩

/-- The segment is removed and both tasks exit. -/
def exitedBoth : State := exit (exit (exec .x64 forkedOnce 10 (.shmctl 1 1 .rmid)).2 2 11 true) 1 10 true

private theorem exitedBoth_run :
    Run (Step .x64) forkedOnce [(.shmctl 1 1 .rmid, 0), (.exit 2 true, 0), (.exit 1 true, 0)] exitedBoth := by
  have hspace : ∀ t, forkedOnce.space t = if t = 2 then some 11 else if t = 1 then some 10 else none := by
    intro t
    exact update_apply _ _ _ _
  have h2 : Op.Valid (exec .x64 forkedOnce 10 (.shmctl 1 1 .rmid)).2 11 (.exit 2 true) := by
    refine ⟨fun _ t hne ht => ?_, fun _ => rfl⟩
    replace ht : forkedOnce.space t = some 11 := ht
    rw [hspace t, if_neg hne] at ht
    split_ifs at ht
    cases ht
  have h1 : Op.Valid (exit (exec .x64 forkedOnce 10 (.shmctl 1 1 .rmid)).2 2 11 true) 10 (.exit 1 true) := by
    refine ⟨fun _ t hne ht => ?_, fun _ => rfl⟩
    rw [show space _ t = if t = 2 then none else forkedOnce.space t from update_apply _ _ _ _, hspace t] at ht
    split_ifs at ht
  exact ((Run.single ⟨10, rfl, trivial, rfl⟩).snoc ⟨11, rfl, h2, rfl⟩).snoc ⟨10, rfl, h1, rfl⟩

/-- After a fork the segment is attached twice and counted once; the new task cannot detach it; and when it is removed
and both tasks have exited, it is still there. -/
theorem fork_not_counted : ∃ tr s tr' s', Run (Step .x64) oneTask tr s ∧ Run (Step .x64) s tr' s' ∧
    s.segs.map (fun g => (g.shmid, g.attachCount)) = [(1, 1)] ∧ s.pairs 1 = [(11, 0x40000000), (10, 0x40000000)] ∧
    s.space 2 = some 11 ∧ (sysShmdt s 2 11 0x40000000).1 = einval ∧
    s'.segs.map (fun g => (g.shmid, g.removed)) = [(1, true)] ∧ s'.pairs 1 = [] ∧ s'.held = [100] :=
  ⟨_, _, _, _, forkedOnce_run, exitedBoth_run, by decide +kernel⟩

end Mos.Shm
