import Mos.Lib.Hierarchy
import Mos.Tmpfs.Tree

/-!
# The invariant of the directory tree

What holds of the nodes and entries of a tmpfs between two operations, and the four changes that the operations are
made of: a node is allocated, an entry is added, an entry is removed, an entry is moved.
-/

namespace Mos.Tmpfs

open Lib Relation List Assoc Node SbInfo

/-- The directory `d` has an entry for `c`. -/
def SbInfo.Entry (s : SbInfo) (d c : Nat) : Prop := ∃ name, (name, c) ∈ (s.node d).children

/-- The number of entries that name a node. -/
def SbInfo.entryCount (s : SbInfo) (x : Nat) : Nat :=
  ∑ d ∈ Finset.range s.next, ((s.node d).children.map Prod.snd).count x

structure TreeInv (s : SbInfo) : Prop where
  tree : Hierarchy root s.Entry fun n => (s.node n).mode = .dir
  root_mode : (s.node root).mode = .dir
  root_parent : (s.node root).parent = some root
  root_lt : root < s.next
  bound : ∀ {d name c}, (name, c) ∈ (s.node d).children → d < s.next ∧ c < s.next
  keys : ∀ d, ((s.node d).children.map Prod.fst).Nodup
  names : ∀ {d name c}, (name, c) ∈ (s.node d).children → badName name = false
  one : ∀ {d d' name name' c}, (name, c) ∈ (s.node d).children → (name', c) ∈ (s.node d').children →
    (s.node c).mode = .dir → name = name'
  parent : ∀ {d name c}, (name, c) ∈ (s.node d).children → (s.node c).mode = .dir → (s.node c).parent = some d
  links : ∀ {x}, x < s.next → (s.node x).mode ≠ .dir → (s.node x).links = s.entryCount x

variable {s : SbInfo}

private theorem modify_node (n : Nat) (f : Node → Node) (m : Nat) :
    (s.modify n f).node m = if m = n then f (s.node m) else s.node m := by
  unfold SbInfo.modify
  by_cases h : m = n
  · subst h
    simp
  · simp [h]

private theorem entryCount_step (s s' : SbInfo) {p : Nat} (x : Nat) (hnext : s'.next = s.next) (hp : p < s.next)
    (hin : ((s'.node p).children.map Prod.snd).Perm (x :: (s.node p).children.map Prod.snd))
    (hout : ∀ d, d ≠ p → (s'.node d).children = (s.node d).children) (y : Nat) :
    s'.entryCount y = s.entryCount y + if x = y then 1 else 0 := by
  have hterm : ∀ d, ((s'.node d).children.map Prod.snd).count y =
      ((s.node d).children.map Prod.snd).count y + if d = p then (if x = y then 1 else 0) else 0 := by
    intro d
    by_cases hd : d = p
    · subst hd
      rw [hin.count_eq, count_cons, if_pos rfl]
      simp
    · rw [hout d hd, if_neg hd, Nat.add_zero]
  unfold entryCount
  rw [hnext, Finset.sum_congr rfl fun d _ => hterm d, Finset.sum_add_distrib, Finset.sum_ite_eq',
    if_pos (Finset.mem_range.2 hp)]

variable {d c x : Nat}

theorem TreeInv.lookup_mem {name : Str} (h : tmpfsDirLookup s d name = some c) :
    (name, c) ∈ (s.node d).children := mem_of_find h

theorem TreeInv.entry_lt (h : TreeInv s) (he : s.Entry d c) : d < s.next ∧ c < s.next := by
  obtain ⟨name, hmem⟩ := he
  exact h.bound hmem

theorem TreeInv.reach_lt (h : TreeInv s) (hx : ReflTransGen s.Entry root x) : x < s.next := by
  cases hx with
  | refl => exact h.root_lt
  | tail _ he => exact (h.entry_lt he).2

theorem no_entry (hx : (s.node x).children = []) (c : Nat) : ¬s.Entry x c := by
  rintro ⟨n, hmem⟩
  rw [hx] at hmem
  cases hmem

section

variable {n : Node}

theorem alloc_node (m : Nat) : (tmpfsNodeAlloc s n).node m = if m = s.next then n else s.node m := by
  unfold tmpfsNodeAlloc
  by_cases h : m = s.next
  · subst h
    simp
  · simp [h]

theorem TreeInv.no_children (h : TreeInv s) (hd : s.next ≤ d) : (s.node d).children = [] := by
  refine eq_nil_iff_forall_not_mem.2 fun e he => ?_
  have := (h.bound (show (e.1, e.2) ∈ _ from he)).1
  omega

theorem alloc_children (h : TreeInv s) (hn : n.children = []) (d : Nat) :
    ((tmpfsNodeAlloc s n).node d).children = (s.node d).children := by
  rw [alloc_node]
  split_ifs with hd
  · rw [hn, h.no_children (by omega)]
  · rfl

theorem TreeInv.alloc (h : TreeInv s) (hn : n.children = []) (hl : n.links = 0) : TreeInv (tmpfsNodeAlloc s n) := by
  have hch := alloc_children h hn
  have hentry : (tmpfsNodeAlloc s n).Entry = s.Entry := by
    funext d c
    simp only [Entry, hch]
  have hold : ∀ {m}, m < s.next → (tmpfsNodeAlloc s n).node m = s.node m := fun {m} hm => by
    rw [alloc_node, if_neg (by omega)]
  constructor
  · rw [hentry]
    refine h.tree.congr_branch fun {d c} he => ?_
    obtain ⟨hd, hc⟩ := h.entry_lt he
    rw [hold hd, hold hc]
    exact ⟨id, id⟩
  · rw [hold h.root_lt]
    exact h.root_mode
  · rw [hold h.root_lt]
    exact h.root_parent
  · exact Nat.lt_succ_of_lt h.root_lt
  · intro d name c hmem
    rw [hch] at hmem
    obtain ⟨hd, hc⟩ := h.bound hmem
    exact ⟨Nat.lt_succ_of_lt hd, Nat.lt_succ_of_lt hc⟩
  · intro d
    rw [hch]
    exact h.keys d
  · intro d name c hmem
    rw [hch] at hmem
    exact h.names hmem
  · intro d d' name name' c hmem hmem' hc
    rw [hch] at hmem hmem'
    rw [hold (h.bound hmem).2] at hc
    exact h.one hmem hmem' hc
  · intro d name c hmem hc
    rw [hch] at hmem
    rw [hold (h.bound hmem).2] at hc ⊢
    exact h.parent hmem hc
  · intro x hx hmode
    have hcount : (tmpfsNodeAlloc s n).entryCount x = s.entryCount x := by
      unfold entryCount
      simp only [hch]
      rw [show (tmpfsNodeAlloc s n).next = s.next + 1 from rfl, Finset.sum_range_succ, h.no_children le_rfl]
      simp
    rw [hcount]
    by_cases hxn : x < s.next
    · rw [hold hxn] at hmode ⊢
      exact h.links hxn hmode
    -- nothing names the new node yet
    have hxe : x = s.next := by
      have : x < s.next + 1 := hx
      omega
    subst hxe
    rw [alloc_node, if_pos rfl, hl]
    refine (Finset.sum_eq_zero fun d _ => List.count_eq_zero.2 fun hmem => ?_).symm
    obtain ⟨e, he, hex⟩ := mem_map.1 hmem
    have := (h.bound (show (e.1, e.2) ∈ _ from he)).2
    omega

end

/-! ### A new entry -/

section

variable {p x : Nat} {name : Str}

private theorem add_mode (d : Nat) : ((tmpfsDirAdd s p name x).node d).mode = (s.node d).mode := by
  simp only [tmpfsDirAdd, modify_node, linked]
  split_ifs <;> rfl

private theorem add_children (d : Nat) : ((tmpfsDirAdd s p name x).node d).children =
    if d = p then (s.node d).children ++ [(name, x)] else (s.node d).children := by
  simp only [tmpfsDirAdd, modify_node, linked]
  split_ifs <;> rfl

private theorem add_parent (d : Nat) :
    ((tmpfsDirAdd s p name x).node d).parent = if d = x then some p else (s.node d).parent := by
  simp only [tmpfsDirAdd, modify_node, linked]
  split_ifs <;> rfl

private theorem add_links (d : Nat) (hd : (s.node d).mode ≠ .dir) :
    ((tmpfsDirAdd s p name x).node d).links = if d = x then addW 32 (s.node d).links 1 else (s.node d).links := by
  simp only [tmpfsDirAdd, modify_node, linked, if_neg hd]
  split_ifs <;> rfl

private theorem mem_add {e : Str × Nat} : e ∈ ((tmpfsDirAdd s p name x).node d).children ↔
    e ∈ (s.node d).children ∨ d = p ∧ e = (name, x) := by
  rw [add_children]
  split_ifs with hd
  · simp [hd]
  · simp [hd]

theorem TreeInv.add (h : TreeInv s) (hreach : ReflTransGen s.Entry root p) (hdir : (s.node p).mode = .dir)
    (hname : badName name = false) (hfree : tmpfsDirLookup s p name = none) (hx : x < s.next) (hroot : x ≠ root)
    (hnew : (s.node x).mode = .dir → ∀ d, ¬s.Entry d x)
    (hlinks : (s.node x).mode ≠ .dir → (s.node x).links + 1 < 2 ^ 32) :
    TreeInv (tmpfsDirAdd s p name x) := by
  have hp := h.reach_lt hreach
  constructor
  · have hentry : ∀ d c, (tmpfsDirAdd s p name x).Entry d c ↔ s.Entry d c ∨ d = p ∧ c = x := by
      intro d c
      simp only [Entry, mem_add, exists_or, Prod.mk.injEq]
      simp
    simp only [add_mode]
    exact h.tree.add hentry hreach hdir hroot hnew
  · rw [add_mode]
    exact h.root_mode
  · rw [add_parent, if_neg (Ne.symm hroot)]
    exact h.root_parent
  · exact h.root_lt
  · intro d name' c hmem
    rcases mem_add.1 hmem with hmem | ⟨rfl, heq⟩
    · exact h.bound hmem
    · cases heq
      exact ⟨hp, hx⟩
  · intro d
    rw [add_children]
    split_ifs with hd
    · subst hd
      rw [map_append, map_singleton]
      exact nodup_append.2 ⟨h.keys d, nodup_singleton _, fun k hk k' hk' => by
        rw [mem_singleton.1 hk']
        rintro rfl
        exact find_eq_none.1 hfree hk⟩
    · exact h.keys d
  · intro d name' c hmem
    rcases mem_add.1 hmem with hmem | ⟨rfl, heq⟩
    · exact h.names hmem
    · cases heq
      exact hname
  · intro d d' n n' c hmem hmem' hc
    rw [add_mode] at hc
    rcases mem_add.1 hmem with hold | ⟨rfl, heq⟩
    · rcases mem_add.1 hmem' with hold' | ⟨rfl, heq'⟩
      · exact h.one hold hold' hc
      · cases heq'
        exact absurd ⟨n, hold⟩ (hnew hc d)
    · cases heq
      rcases mem_add.1 hmem' with hold' | ⟨rfl, heq'⟩
      · exact absurd ⟨n', hold'⟩ (hnew hc d')
      · cases heq'
        rfl
  · intro d n c hmem hc
    rw [add_mode] at hc
    rw [add_parent]
    rcases mem_add.1 hmem with hold | ⟨rfl, heq⟩
    · rw [if_neg]
      · exact h.parent hold hc
      · rintro rfl
        exact hnew hc d ⟨n, hold⟩
    · cases heq
      rw [if_pos rfl]
  · intro y hy hmode
    rw [add_mode] at hmode
    have hcount := entryCount_step s (tmpfsDirAdd s p name x) x rfl hp
      (by
        rw [add_children, if_pos rfl, map_append, map_singleton]
        exact perm_append_singleton _ _)
      (fun d hd => by rw [add_children, if_neg hd]) y
    rw [add_links y hmode, hcount]
    split_ifs with hyx hxy hxy
    · subst hyx
      rw [addW_eq (hlinks hmode), h.links hy hmode]
    · exact absurd hyx.symm hxy
    · exact absurd hxy.symm hyx
    · exact h.links hy hmode

end

variable {n : Str}

section

variable {d0 x : Nat} {name : Str}

theorem remove_eq (hl : tmpfsDirLookup s d0 name = some x) : tmpfsDirRemove s d0 name =
    (0, (s.modify d0 fun n => { n with children := remove n.children name }).modify x unlinked) := by
  unfold tmpfsDirRemove
  rw [hl]

private theorem unlinked_keeps (n : Node) :
    n.unlinked.mode = n.mode ∧ n.unlinked.children = n.children ∧ n.unlinked.parent = n.parent := by
  unfold unlinked
  split_ifs <;> exact ⟨rfl, rfl, rfl⟩

private theorem unlinked_links {n : Node} (hn : n.mode ≠ .dir) : n.unlinked.links = n.links - 1 := by
  unfold unlinked
  split_ifs with h
  · rfl
  · have : n.links = 0 := by simpa [hn] using h
    omega

variable (hl : tmpfsDirLookup s d0 name = some x)
include hl

private theorem remove_next : (tmpfsDirRemove s d0 name).2.next = s.next := by
  rw [remove_eq hl]
  rfl

theorem remove_mode (d : Nat) : ((tmpfsDirRemove s d0 name).2.node d).mode = (s.node d).mode := by
  simp only [remove_eq hl, modify_node, apply_ite mode, unlinked_keeps]
  split_ifs <;> rfl

theorem remove_children (d : Nat) : ((tmpfsDirRemove s d0 name).2.node d).children =
    if d = d0 then remove (s.node d).children name else (s.node d).children := by
  simp only [remove_eq hl, modify_node, apply_ite children, unlinked_keeps]
  split_ifs <;> rfl

private theorem remove_parent (d : Nat) : ((tmpfsDirRemove s d0 name).2.node d).parent = (s.node d).parent := by
  simp only [remove_eq hl, modify_node, apply_ite parent, unlinked_keeps]
  split_ifs <;> rfl

theorem remove_links (d : Nat) (hd : (s.node d).mode ≠ .dir) : ((tmpfsDirRemove s d0 name).2.node d).links =
    if d = x then (s.node d).links - 1 else (s.node d).links := by
  simp only [remove_eq hl, modify_node]
  split_ifs
  · exact unlinked_links hd
  · exact unlinked_links hd
  · rfl
  · rfl

theorem mem_remove_entry (h : TreeInv s) :
    (n, c) ∈ ((tmpfsDirRemove s d0 name).2.node d).children ↔ (n, c) ∈ (s.node d).children ∧
    ¬(d = d0 ∧ n = name) := by
  rw [remove_children hl]
  split_ifs with hd
  · rw [mem_remove (h.keys d)]
    simp [hd]
  · simp [hd]

theorem remove_entry (h : TreeInv s) (he : s.Entry d c) : (tmpfsDirRemove s d0 name).2.Entry d c ∨ c = x := by
  obtain ⟨n, hmem⟩ := he
  by_cases hd : d = d0 ∧ n = name
  · obtain ⟨rfl, rfl⟩ := hd
    have hfind := find_of_mem (h.keys d) hmem
    exact .inr (Option.some.inj (hfind.symm.trans hl))
  · exact .inl ⟨n, (mem_remove_entry hl h).mpr ⟨hmem, hd⟩⟩

theorem TreeInv.remove (h : TreeInv s) (hx : (s.node x).children = []) : TreeInv (tmpfsDirRemove s d0 name).2 := by
  have hmem0 := TreeInv.lookup_mem hl
  have hle : ∀ {d n c}, (n, c) ∈ ((tmpfsDirRemove s d0 name).2.node d).children → (n, c) ∈ (s.node d).children :=
    fun hmem => ((mem_remove_entry hl h).mp hmem).1
  constructor
  · simp only [remove_mode hl]
    refine h.tree.prune ?_ (remove_entry hl h) (no_entry hx)
    rintro d c ⟨n, hmem⟩
    exact ⟨n, hle hmem⟩
  · rw [remove_mode hl]
    exact h.root_mode
  · rw [remove_parent hl]
    exact h.root_parent
  · rw [remove_next hl]
    exact h.root_lt
  · intro d n c hmem
    rw [remove_next hl]
    exact h.bound (hle hmem)
  · intro d
    rw [remove_children hl]
    split_ifs
    · exact remove_nodup (h.keys d)
    · exact h.keys d
  · exact fun hmem => h.names (hle hmem)
  · intro d d' n n' c hmem hmem' hc
    rw [remove_mode hl] at hc
    exact h.one (hle hmem) (hle hmem') hc
  · intro d n c hmem hc
    rw [remove_mode hl] at hc
    rw [remove_parent hl]
    exact h.parent (hle hmem) hc
  · intro y hy hmode
    rw [remove_next hl] at hy
    rw [remove_mode hl] at hmode
    have hcount := entryCount_step (tmpfsDirRemove s d0 name).2 s x (remove_next hl).symm
      (by rw [remove_next hl]; exact (h.bound hmem0).1)
      (by
        rw [remove_children hl, if_pos rfl]
        exact (perm_remove hl).map Prod.snd)
      (fun d hd => by rw [remove_children hl, if_neg hd]) y
    have hlinks := h.links hy hmode
    rw [remove_links hl y hmode]
    split_ifs at hcount ⊢ with hxy hyx hyx
    · omega
    · exact absurd hxy.symm hyx
    · exact absurd hyx.symm hxy
    · omega

end

/-! ### An entry is moved -/

section

variable {x d1 d2 : Nat} {n1 n2 : Str}

theorem move_mode (d : Nat) : ((moveEntry s x d1 n1 d2 n2).node d).mode = (s.node d).mode := by
  simp only [moveEntry, modify_node]
  split_ifs <;> rfl

theorem move_links (d : Nat) : ((moveEntry s x d1 n1 d2 n2).node d).links = (s.node d).links := by
  simp only [moveEntry, modify_node]
  split_ifs <;> rfl

theorem move_parent (d : Nat) :
    ((moveEntry s x d1 n1 d2 n2).node d).parent = if d = x then some d2 else (s.node d).parent := by
  simp only [moveEntry, modify_node]
  split_ifs <;> rfl

theorem move_children (d : Nat) : ((moveEntry s x d1 n1 d2 n2).node d).children =
    (if d = d1 then remove (s.node d).children n1 else (s.node d).children) ++
      if d = d2 then [(n2, x)] else [] := by
  simp only [moveEntry, modify_node]
  split_ifs <;> simp

theorem mem_move (h : TreeInv s) : (n, c) ∈ ((moveEntry s x d1 n1 d2 n2).node d).children ↔
    ((n, c) ∈ (s.node d).children ∧ ¬(d = d1 ∧ n = n1)) ∨ d = d2 ∧ n = n2 ∧ c = x := by
  rw [move_children, mem_append]
  refine or_congr ?_ ?_
  · split_ifs with hd
    · rw [mem_remove (h.keys d)]
      simp [hd]
    · simp [hd]
  · split_ifs with hd
    · simp [hd]
    · simp [hd]

/-- The count of the entries of a node goes down by one and up again. -/
theorem move_entryCount (h : TreeInv s) (hl : tmpfsDirLookup s d1 n1 = some x) (hd₂ : d2 < s.next) (y : Nat) :
    (moveEntry s x d1 n1 d2 n2).entryCount y = s.entryCount y := by
  have hmid : ∀ d, ((s.modify d1 fun n => { n with children := remove n.children n1 }).node d).children =
      if d = d1 then remove (s.node d).children n1 else (s.node d).children := by
    intro d
    rw [modify_node]
    split_ifs <;> rfl
  have hout := entryCount_step (s.modify d1 fun n => { n with children := remove n.children n1 }) s x rfl
    (h.bound (TreeInv.lookup_mem hl)).1 (by
      rw [hmid, if_pos rfl]
      exact (perm_remove hl).map Prod.snd)
    (fun d hd => by rw [hmid, if_neg hd]) y
  have hin := entryCount_step (s.modify d1 fun n => { n with children := remove n.children n1 })
    (moveEntry s x d1 n1 d2 n2) x rfl hd₂
    (by
      rw [move_children, hmid, if_pos (rfl : d2 = d2), map_append, map_singleton]
      exact perm_append_singleton _ _)
    (fun d hd => by rw [move_children, hmid, if_neg hd, append_nil]) y
  rw [hin, hout]

/-- The new parent is a directory that is not below the node, and the new name is free there. -/
theorem TreeInv.move (h : TreeInv s) (hl : tmpfsDirLookup s d1 n1 = some x) (hreach : ReflTransGen s.Entry root d2)
    (hdir : (s.node d2).mode = .dir) (hname : badName n2 = false) (hfree : tmpfsDirLookup s d2 n2 = none)
    (hbelow : ¬ReflTransGen s.Entry x d2) : TreeInv (moveEntry s x d1 n1 d2 n2) := by
  have hmem1 := TreeInv.lookup_mem hl
  have hd2 := h.reach_lt hreach
  have hroot : x ≠ root := by
    rintro rfl
    exact h.tree.root_free d1 ⟨n1, hmem1⟩
  -- a directory has no entry but the one that moves
  have honly : (s.node x).mode = .dir → ∀ {d n}, (n, x) ∈ (s.node d).children → d = d1 ∧ n = n1 :=
    fun hx {d n} hmem =>
    ⟨h.tree.single hx ⟨n, hmem⟩ ⟨n1, hmem1⟩, h.one hmem hmem1 hx⟩
  have hnew : (s.node x).mode = .dir → ∀ {d n}, (n, x) ∈ ((moveEntry s x d1 n1 d2 n2).node d).children →
      d = d2 ∧ n = n2 := by
    intro hx d n hmem
    rcases (mem_move h).mp hmem with ⟨hold, hne⟩ | ⟨hd, hn, -⟩
    · exact absurd (honly hx hold) hne
    · exact ⟨hd, hn⟩
  constructor
  · simp only [move_mode]
    refine h.tree.move ?_ ?_ ?_ hreach hdir hroot hbelow ?_
    · rintro d c ⟨n, hmem⟩
      rcases (mem_move h).mp hmem with ⟨hold, -⟩ | ⟨hd, -, hc⟩
      · exact .inl ⟨n, hold⟩
      · exact .inr ⟨hd, hc⟩
    · rintro d c ⟨n, hmem⟩
      by_cases hd : d = d1 ∧ n = n1
      · obtain ⟨rfl, rfl⟩ := hd
        have hfind := Assoc.find_of_mem (h.keys d) hmem
        exact .inr (Option.some.inj (hfind.symm.trans hl))
      · exact .inl ⟨n, (mem_move h).mpr (.inl ⟨hmem, hd⟩)⟩
    · exact ⟨n2, (mem_move h).mpr (.inr ⟨rfl, rfl, rfl⟩)⟩
    · rintro hx d ⟨n, hmem⟩
      exact (hnew hx hmem).1
  · rw [move_mode]
    exact h.root_mode
  · rw [move_parent, if_neg (Ne.symm hroot)]
    exact h.root_parent
  · exact h.root_lt
  · intro d n c hmem
    rcases (mem_move h).mp hmem with ⟨hold, -⟩ | ⟨rfl, -, rfl⟩
    · exact h.bound hold
    · exact ⟨hd2, (h.bound hmem1).2⟩
  · intro d
    have hrest : ((if d = d1 then Assoc.remove (s.node d).children n1 else (s.node d).children).map
      Prod.fst).Nodup := by
      split_ifs
      · exact Assoc.remove_nodup (h.keys d)
      · exact h.keys d
    rw [move_children, map_append]
    by_cases hd : d = d2
    · subst hd
      rw [if_pos (rfl : d = d), map_singleton]
      refine nodup_append.2 ⟨hrest, nodup_singleton _, fun k hk k' hk' => ?_⟩
      rw [mem_singleton.1 hk']
      rintro rfl
      refine Assoc.find_eq_none.1 hfree ?_
      split_ifs at hk
      · exact (eraseP_sublist.map Prod.fst).subset hk
      · exact hk
    · rw [if_neg hd, map_nil, append_nil]
      exact hrest
  · intro d n c hmem
    rcases (mem_move h).mp hmem with ⟨hold, -⟩ | ⟨-, rfl, -⟩
    · exact h.names hold
    · exact hname
  · intro d d' n n' c hmem hmem' hc
    rw [move_mode] at hc
    by_cases hcx : c = x
    · subst hcx
      rw [(hnew hc hmem).2, (hnew hc hmem').2]
    · have hold : ∀ {d n}, (n, c) ∈ ((moveEntry s x d1 n1 d2 n2).node d).children → (n, c) ∈ (s.node d).children :=
        fun hmem => (((mem_move h).mp hmem).resolve_right fun hn => hcx hn.2.2).1
      exact h.one (hold hmem) (hold hmem') hc
  · intro d n c hmem hc
    rw [move_mode] at hc
    rw [move_parent]
    by_cases hcx : c = x
    · subst hcx
      rw [if_pos rfl, (hnew hc hmem).1]
    · rw [if_neg hcx]
      exact h.parent (((mem_move h).mp hmem).resolve_right fun hn => hcx hn.2.2).1 hc
  · intro y hy hmode
    rw [move_mode] at hmode
    rw [move_links, move_entryCount h hl hd2]
    exact h.links hy hmode

end

end Mos.Tmpfs
