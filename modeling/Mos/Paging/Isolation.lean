import Mos.Paging.CallSteps

/-!
# Private pages and reference counts

Over every run of faults, stores, forks, calls on address spaces and steps of the rest of the kernel, a store through
a private mapping changes a page to which nothing else refers, and the reference count of a page is the number of its
references.  Mappings of physical memory (`VM_REGION_F_DIRECT_PHYS`) are the exception: their entries are not counted,
and a store through one of them changes whatever is there.
-/

namespace Mos.Paging

open Lib Vm Function List

variable {α : Type} {C : Config} {s s' : State α} {a addr : Nat} {v : α}

/-- After `mm_init`: nothing is mapped or cached, and the kernel refers to the zero page. -/
structure Boot (C : Config) (s : State α) : Prop where
  regions : ∀ a, (s.mm a).regions = []
  ptes : s.ptes = []
  pageCache : s.pageCache = []
  fileShared : s.fileShared = []
  anonShared : s.anonShared = []
  held : s.held = [C.zeroPage]
  lost : s.lost = []
  log : s.log = []
  count : ∀ p, s.pool.count p = if p = C.zeroPage then 1 else 0
  free : ∀ p, s.pool.free p = true ↔ s.pool.owns p = true ∧ p ≠ C.zeroPage ∧ p ∉ s.other
  owns : s.pool.owns C.zeroPage = true ∧ ∀ p ∈ s.other, s.pool.owns p = true
  other : s.other.Nodup ∧ C.zeroPage ∉ s.other

theorem Boot.refs (h : Boot C s) : s.refs = [C.zeroPage] := by
  simp [State.refs, State.mapped, State.shared, h.ptes, h.pageCache, h.fileShared, h.anonShared, h.held]

theorem Boot.inv (h : Boot C s) : Inv C s.idle := by
  have hrefs := h.refs
  refine ⟨⟨fun p => ?_, fun p => ?_, fun p hp => ?_, ?_, fun p hp => ?_⟩,
    fun a => (empty_ok C.arch _ (h.regions a)).1, ?_, fun e he => ?_, fun e he => ?_, ?_⟩
  all_goals simp only [nil_append, hrefs, h.lost, append_nil] at *
  · rw [h.count]
    by_cases hp : p = C.zeroPage
    · simp [hp]
    · rw [if_neg hp, count_cons_of_ne (fun hc => hp hc.symm), count_nil]
  · rw [h.free]
    simp
  · rcases hp with hp | hp
    · rw [mem_singleton.1 hp]
      exact h.owns.1
    · exact h.owns.2 p hp
  · exact h.other.1
  · exact fun hz => h.other.2 (mem_singleton.1 hz ▸ hp)
  · rw [Placed, h.ptes]
    exact .nil
  · rw [h.ptes] at he
    cases he
  · rw [h.ptes] at he
    cases he
  · rw [h.held]
    exact mem_singleton_self _

theorem Step.inv [Zero α] {op : Op α} (h : Inv C s.idle) (hs : Step C s op s') : Inv C s'.idle :=
  h.reach (hs.reach h (op.permits_all s))

theorem Boot.run_inv [Zero α] {tr : List (Op α)} (h₀ : Boot C s) (hrun : Run (Step C) s tr s') : Inv C s'.idle :=
  hrun.invariant_state (fun s => Inv C s.idle) h₀.inv fun _ _ _ ht hs => hs.inv ht

/-- The byte that address space `a` reads at `addr`. -/
def State.load (s : State α) (a addr : Nat) : Option (Byte α) :=
  (s.pte a (pageOf addr)).map fun e => s.bytes e.pfn (addr % pageSize)

/-- A store through an entry of a private mapping changes no page that anything else refers to. -/
theorem Inv.store_private (hinv : Inv C s.idle) (h : userStore C s a addr v = some s')
    (hpriv : ∀ e, s.pte a (pageOf addr) = some e →
      e.direct = false ∧ ∃ t, s.attr e = some t ∧ isShared t.flag = false) :
    (∀ x ∈ s.ptes, x.direct = false → x.space ≠ a → s'.bytes x.pfn = s.bytes x.pfn) ∧
      ∀ p ∈ s.shared, s'.bytes p = s.bytes p := by
  obtain ⟨e, he, hw, heq, -⟩ := userStore_spec h
  have hbytes : ∀ p, p ≠ e.pfn → s'.bytes p = s.bytes p := by
    intro p hp
    rw [heq]
    exact update_of_ne hp _ _
  obtain ⟨hd, t, ht, hp⟩ := hpriv e he
  obtain ⟨hmem, hspace, -⟩ := pte_some he
  have hexcl : Exclusive s e := ⟨hw, hd, t, ht, hp⟩
  refine ⟨fun x hx hxd hxa => hbytes _ ?_, fun p hps => hbytes p ?_⟩
  · exact (hinv.ne_of_entry hmem hexcl hx hxd fun hxe => hxa (hxe ▸ hspace)).symm
  · exact (hinv.ne_of_shared hmem hexcl (.inr (.inl hps))).symm

/-- No page has `2 ^ 31` references: `phymm_is_cow` reads `ref_count` as an `int`. -/
def State.Few (s : State α) : Prop := ∀ p, s.refs.count p < 2 ^ 31

theorem Boot.run_few [Zero α] {tr : List (Op α)} (h₀ : Boot C s)
    (hrun : Run (fun s op s' => Step C s op s' ∧ s'.Few) s tr s') : s'.Few := by
  refine hrun.invariant_state State.Few (fun p => ?_) fun _ _ _ _ hs => hs.2
  have hcount : s.pool.count p = s.refs.count p := by simpa using h₀.inv.pool.count_eq p
  rw [← hcount, h₀.count]
  split_ifs <;> decide

/-- **Isolation and reference counting.**  In every state that the kernel reaches from boot without a page having had
`2 ^ 31` references: the reference count of every page, also as an `int`, is the number of its references, and a page
is free exactly if it has none, is not in use without one, and was not lost by a fault that failed; and a store
through a private mapping, other than of physical memory, changes no byte that another address space reads through
page-table entries that count, that a cache holds, or of the zero page. -/
theorem paging_runs [Zero α] (C : Config) (s₀ : State α) (h₀ : Boot C s₀) (tr : List (Op α)) (s : State α)
    (hrun : Run (fun s op s' => Step C s op s' ∧ s'.Few) s₀ tr s) : (∀ p, s.pool.count p = s.refs.count p ∧
      (BitVec.ofNat 32 (s.pool.count p)).toInt = s.refs.count p ∧
      (s.pool.free p = true ↔ s.pool.owns p = true ∧ p ∉ s.refs ∧ p ∉ s.other ∧ p ∉ s.lost)) ∧
    ∀ a addr v s', Step C s (.store a addr v) s' →
      (∀ e, s.pte a (pageOf addr) = some e → e.direct = false ∧ ∃ t, s.attr e = some t ∧ isShared t.flag = false) →
      (∀ b x, b ≠ a → (∀ e, s.pte b (pageOf x) = some e → e.direct = false) → s'.load b x = s.load b x) ∧
      (∀ k p, (k, p) ∈ s.pageCache → s'.bytes p = s.bytes p) ∧
      (∀ k p, (k, p) ∈ s.fileShared → s'.bytes p = s.bytes p) ∧
      (∀ k p, (k, p) ∈ s.anonShared → s'.bytes p = s.bytes p) ∧ s'.bytes C.zeroPage = s.bytes C.zeroPage := by
  have hinv := h₀.run_inv (hrun.imp fun _ _ _ _ hs => hs.1)
  have hcount : ∀ p, s.pool.count p = s.refs.count p := fun p => by simpa using hinv.pool.count_eq p
  refine ⟨fun p => ⟨hcount p, ?_, ?_⟩, fun a addr v s' ⟨_, _, _, hstore⟩ hpriv => ?_⟩
  · have hfew := h₀.run_few hrun p
    rw [hcount, BitVec.toInt_ofNat', Int.bmod_eq_of_le (by omega) (by omega)]
  · simpa using hinv.pool.free_iff p
  · obtain ⟨hptes, hshared⟩ := hinv.store_private hstore hpriv
    refine ⟨fun b x hb hd => ?_, fun k p hk => hshared p ?_, fun k p hk => hshared p ?_, fun k p hk => hshared p ?_,
      hshared _ ?_⟩
    · have hsame : s'.pte b (pageOf x) = s.pte b (pageOf x) := by
        obtain ⟨_, -, -, heq, -⟩ := userStore_spec hstore
        rw [heq]
        rfl
      unfold State.load
      rw [hsame]
      cases he : s.pte b (pageOf x) with
      | none => rfl
      | some e =>
        obtain ⟨hmem, hspace, -⟩ := pte_some he
        rw [Option.map_some, Option.map_some, hptes e hmem (hd e he) (hspace ▸ hb)]
    · exact mem_append_left _ (mem_map.2 ⟨_, hk, rfl⟩)
    · exact mem_append_right _ (mem_append_left _ (mem_map.2 ⟨_, hk, rfl⟩))
    · refine mem_append_right _ (mem_append_right _ (mem_append_left _ ?_))
      exact mem_map.2 ⟨_, hk, rfl⟩
    · refine mem_append_right _ (mem_append_right _ (mem_append_right _ ?_))
      exact hinv.zero

theorem exists_run [Zero α] {ops : List (Op α)} (fuel : Nat) (hv : ∀ op ∈ ops, ∀ t, op.Valid C t) {P : State α → Bool}
    (h : (ops.foldlM (exec C 0 fuel) s).any P = true) : ∃ s', Run (Step C) s ops s' ∧ P s' = true :=
  Run.exists_of_foldlM (fun op hop t _ hexec => ⟨hv op hop t, 0, fuel, hexec⟩) h

private theorem exists_few_run [Zero α] {ops : List (Op α)} (fuel : Nat) (hv : ∀ op ∈ ops, ∀ t, op.Valid C t)
    {P : State α → Bool} (h : (ops.foldlM (fun s op => (exec C 0 fuel s op).filter (·.refs.length < 2 ^ 31)) s).any
    P) :
    ∃ s', Run (fun s op s' => Step C s op s' ∧ s'.Few) s ops s' ∧ P s' = true := by
  refine Run.exists_of_foldlM (fun op hop t t' hexec => ?_) h
  obtain ⟨hexec, hlen⟩ := Option.filter_eq_some_iff.1 hexec
  exact ⟨⟨hv op hop t, 0, fuel, hexec⟩, fun p => Nat.lt_of_le_of_lt count_le_length (by simpa using hlen)⟩

/-- File 0 is `/dev/mem`, the other files are cached. -/
def sampleConfig : Config := ⟨x64, .none VmRegion, 0, id, fun f => if f = 0 then .directPhys else .cached⟩

/-- Sixteen pages, of which the first is the zero page. -/
def sampleBoot : State Nat where
  mm := fun _ => ⟨.leaf, 1, x64.nativeTaskSize⟩
  ptes := []
  pool := ⟨fun p => if p = 0 then 1 else 0, fun p => decide (p < 16 ∧ p ≠ 0), fun p => decide (p < 16)⟩
  dirty := fun _ => false
  bytes := fun _ _ => ⟨0, 0⟩
  pageCache := []
  fileShared := []
  anonShared := []
  held := [0]
  other := []
  lost := []
  clock := 0
  log := []

theorem sampleBoot_boot : Boot sampleConfig sampleBoot where
  regions := fun _ => rfl
  ptes := rfl
  pageCache := rfl
  fileShared := rfl
  anonShared := rfl
  held := rfl
  lost := rfl
  log := rfl
  count := fun _ => rfl
  free := fun p => by simp [sampleBoot, sampleConfig]
  owns := ⟨rfl, fun p hp => by cases hp⟩
  other := ⟨.nil, fun hp => by cases hp⟩

/-- Every allocation returns page `p` and everything succeeds. -/
def grants (p : Nat) : Choices Nat where
  trim := []
  load := ⟨[], [], some p, false⟩
  readOk := true
  content := fun _ => 0
  mallocOk := true
  copy := ⟨[], [], some p, false⟩
  copyOk := true
  mapOk := true
  hook := none
  around := fun _ => false

/-- One page at `0x1000`, readable and writable. -/
def onePage (flag : Int) (fp : Option Nat) (offset : UInt64) : MapArgs :=
    ⟨0x1000, 0x2000, 3, flag, fp, offset, 0, none⟩

theorem onePage_valid (a : Nat) (flag : Int) (fp : Option Nat) (offset : UInt64) (t : State Nat) :
    (Op.mmap a (onePage flag fp offset)).Valid sampleConfig t :=
  ⟨by show 0x1000 < 0x2000; decide, by show pageSize ∣ 0x1000; decide, by show pageSize ∣ 0x2000; decide,
    by show 0x2000 < 2 ^ x64.vaddrBits; decide⟩

private theorem maps_valid (fp : Option Nat) (offset : UInt64) : ∀ op ∈ ([.mmap 1 (onePage 2 none 0),
    .fault 1 0x1000 true (grants 5), .mmap 2 (onePage 2 fp offset), .fault 2 0x1000 true (grants 6)] : List (Op Nat)),
    ∀ t, op.Valid sampleConfig t := by
  simp only [forall_mem_cons]
  exact ⟨onePage_valid _ _ _ _, fun _ => trivial, onePage_valid _ _ _ _, fun _ => trivial, fun _ h => by cases h⟩

/-- Two address spaces with a page of private memory each. -/
private def twoSpaces : List (Op Nat) :=
  [.mmap 1 (onePage 2 none 0), .fault 1 0x1000 true (grants 5), .mmap 2 (onePage 2 none 0),
    .fault 2 0x1000 true (grants 6)]

theorem paging_runs_two_spaces : ∃ s s',
    Run (fun s op s' => Step sampleConfig s op s' ∧ s'.Few) sampleBoot twoSpaces s ∧
    Step sampleConfig s (.store 2 0x1000 7) s' ∧ s.pool.count 5 = s.refs.count 5 ∧
    s'.load 2 0x1000 = some ⟨1, 7⟩ ∧ s'.load 1 0x1000 = s.load 1 0x1000 := by
  obtain ⟨s, hrun, hs⟩ := exists_few_run (s := sampleBoot) 4 (maps_valid none 0) (P := fun s =>
    (exec sampleConfig 0 0 s (.store 2 0x1000 7)).any (fun s' => s'.load 2 0x1000 = some ⟨1, 7⟩) &&
      (s.pte 2 0x1000 = some ⟨2, 0x1000, 6, true, false⟩ && (s.mm 2).view 0x1000 = some ⟨3, 2, none, 0, 0, 0⟩ &&
        s.pte 1 0x1000 = some ⟨1, 0x1000, 5, true, false⟩)) (by decide)
  simp only [Bool.and_eq_true, decide_eq_true_eq] at hs
  obtain ⟨hstore, ⟨hpte2, hview⟩, hpte1⟩ := hs
  obtain ⟨s', hs', hload⟩ := (Option.any_eq_true _ _).mp hstore
  have hstep : Step sampleConfig s (.store 2 0x1000 7) s' := ⟨trivial, 0, 0, hs'⟩
  obtain ⟨hcount, hstores⟩ := paging_runs sampleConfig sampleBoot sampleBoot_boot twoSpaces s hrun
  refine ⟨s, s', hrun, hstep, (hcount 5).1, by simpa using hload, ?_⟩
  refine (hstores 2 0x1000 7 s' hstep fun e he => ?_).1 1 0x1000 (by decide) fun e he => ?_
  · cases hpte2.symm.trans he
    exact ⟨rfl, _, hview, rfl⟩
  · cases hpte1.symm.trans he
    rfl

/-- Address space 2 maps the page of address space 1 through `/dev/mem`. -/
private def throughMemory : List (Op Nat) :=
  [.mmap 1 (onePage 2 none 0), .fault 1 0x1000 true (grants 5), .mmap 2 (onePage 2 (some 0) 0x5000),
    .fault 2 0x1000 true (grants 6)]

/-- A private mapping of physical memory is no copy: a store through it changes what another address space reads, and
its entry is not counted. -/
theorem direct_store_not_isolated : ∃ s s' e t, Run (Step sampleConfig) sampleBoot throughMemory s ∧
    s.pte 2 0x1000 = some e ∧ s.attr e = some t ∧ isShared t.flag = false ∧ s.pool.owns e.pfn = true ∧
    Step sampleConfig s (.store 2 0x1000 7) s' ∧ s.load 1 0x1000 = some ⟨0, 0⟩ ∧ s'.load 1 0x1000 = some ⟨1, 7⟩ ∧
    s.pool.count e.pfn = 1 ∧ (s.ptes.map Pte.pfn).count e.pfn = 2 := by
  obtain ⟨s, hrun, hs⟩ := exists_run (s := sampleBoot) 4 (maps_valid (some 0) 0x5000) (P := fun s =>
    (exec sampleConfig 0 0 s (.store 2 0x1000 7)).any (fun s' => s'.load 1 0x1000 = some ⟨1, 7⟩) &&
      (s.pte 2 0x1000 = some ⟨2, 0x1000, 5, true, true⟩ && (s.mm 2).view 0x1000 = some ⟨3, 2, some 0, 0x5000, 0, 0⟩ &&
        s.load 1 0x1000 = some ⟨0, 0⟩ && s.pool.owns 5 && s.pool.count 5 = 1 &&
        (s.ptes.map Pte.pfn).count 5 = 2)) (by decide)
  simp only [Bool.and_eq_true, decide_eq_true_eq] at hs
  obtain ⟨hstore, ⟨⟨⟨⟨hpte, hview⟩, hload⟩, howns⟩, hcount⟩, hrefs⟩ := hs
  obtain ⟨s', hs', hload'⟩ := (Option.any_eq_true _ _).mp hstore
  exact ⟨s, s', _, _, hrun, hpte, hview, rfl, howns, ⟨trivial, 0, 0, hs'⟩, hload, by simpa using hload', hcount,
    hrefs⟩

end Mos.Paging
