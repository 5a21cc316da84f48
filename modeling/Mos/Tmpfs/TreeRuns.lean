import Mos.Lib.Run
import Mos.Tmpfs.TreeInv

/-!
# Runs on the directory tree of tmpfs

The operations on names, one after another.  Each one keeps the tree and each one that fails leaves it as it is,
except that `tmpfs_rename_op` does not ask if the new parent is a directory: it moves entries into regular files.
-/

namespace Mos.Tmpfs

open Lib Relation List SbInfo

variable {s : SbInfo} {maxPath : Nat}

private theorem walkNames_append (s : SbInfo) (l l' : List Str) (cur : Nat) :
    walkNames s cur (l ++ l') = (walkNames s cur l).bind fun next => walkNames s next l' := by
  induction l generalizing cur with
  | nil => rfl
  | cons component rest ih =>
    simp only [cons_append, walkNames]
    split_ifs
    · rfl
    · rfl
    · cases tmpfsDirLookup s cur component with
      | none => rfl
      | some next => exact ih next

variable {x p : Nat} {path last : Str}

private theorem walkNames_reach {l : List Str} {cur : Nat} (h : walkNames s cur l = some x)
    (hcur : ReflTransGen s.Entry root cur) : ReflTransGen s.Entry root x := by
  induction l generalizing cur with
  | nil =>
    cases h
    exact hcur
  | cons component rest ih =>
    simp only [walkNames] at h
    split_ifs at h
    obtain ⟨next, hnext, hrest⟩ := Option.bind_eq_some_iff.1 h
    exact ih hrest (hcur.tail ⟨component, TreeInv.lookup_mem hnext⟩)

private theorem walkParent_cases (h : tmpfsWalkParent maxPath s path = some (p, last)) :
    (p = root ∧ last = []) ∨ (walkNames s root (names (splitLast path).1) = some p ∧ last = (splitLast path).2) := by
  unfold tmpfsWalkParent at h
  simp only at h
  split_ifs at h with h1 h2 h3 h4
  · cases h
    exact .inl ⟨rfl, rfl⟩
  · cases h
    have hnil := names_slashes (by simpa using h3) []
    rw [append_nil, names_nil] at hnil
    rw [hnil]
    exact .inr ⟨rfl, rfl⟩
  · obtain ⟨q, hq, heq⟩ := Option.map_eq_some_iff.1 h
    cases heq
    exact .inr ⟨hq, rfl⟩

/-- The parent is in the tree, and a walk of the whole path looks the last component up in it. -/
theorem walkParent_spec (h : tmpfsWalkParent maxPath s path = some (p, last)) : ReflTransGen s.Entry root p ∧
      (last ≠ [] → ∀ x, tmpfsWalk s path = some x → tmpfsDirLookup s p last = some x) := by
  rcases walkParent_cases h with ⟨rfl, rfl⟩ | ⟨hfront, rfl⟩
  · exact ⟨.refl, fun hne => absurd rfl hne⟩
  refine ⟨walkNames_reach hfront .refl, fun hne x hx => ?_⟩
  unfold tmpfsWalk at hx
  rw [names_splitLast hne, walkNames_append, hfront] at hx
  simp only [Option.bind_some, walkNames] at hx
  split_ifs at hx
  simpa using hx

/-! ### The ancestors of a directory -/

/-- The nodes above a directory are finitely many, and the loop of a renaming meets these. -/
theorem TreeInv.ancestors (h : TreeInv s) (hp : ReflTransGen s.Entry root p) (hdir : (s.node p).mode = .dir) :
    ∃ l : List Nat, l.Nodup ∧ (∀ y ∈ l, y < s.next) ∧ (∀ y, y ∈ l ↔ ReflTransGen s.Entry y p) ∧
      ∀ node fuel, l.length ≤ fuel → meetsNode s node fuel p = some (decide (node ∈ l)) := by
  induction hp with
  | refl =>
    refine ⟨[root], nodup_singleton _, fun y hy => ?_, fun y => ⟨fun hy => ?_, fun hy => ?_⟩, fun node fuel hf => ?_⟩
    · rw [mem_singleton.1 hy]
      exact h.root_lt
    · rw [mem_singleton.1 hy]
    · cases hy with
      | refl => exact mem_singleton_self _
      | tail _ he => exact absurd he (h.tree.root_free _)
    · obtain ⟨k, rfl⟩ := Nat.exists_eq_add_of_le' hf
      simp only [length_singleton, meetsNode, h.root_parent, mem_singleton, if_true]
      by_cases hn : root = node
      · simp [hn]
      · simp [hn, Ne.symm hn]
  | @tail d c hd hdc ih =>
    obtain ⟨l, hnd, hlt, hmem, hmeet⟩ := ih (h.tree.branches hdc)
    obtain ⟨name, hentry⟩ := hdc
    have hdc : s.Entry d c := ⟨name, hentry⟩
    have hc : c ∉ l := fun hcl => h.tree.acyclic c (TransGen.tail' ((hmem c).mp hcl) hdc)
    refine ⟨c :: l, nodup_cons.2 ⟨hc, hnd⟩, fun y hy => ?_, fun y => ⟨fun hy => ?_, fun hy => ?_⟩,
      fun node fuel hf => ?_⟩
    · rcases mem_cons.1 hy with rfl | hy
      · exact (h.bound hentry).2
      · exact hlt y hy
    · rcases mem_cons.1 hy with rfl | hy
      · exact .refl
      · exact ((hmem y).mp hy).tail hdc
    · cases hy with
      | refl => exact mem_cons_self
      | tail hy he =>
        obtain rfl := h.tree.single hdir he hdc
        exact mem_cons_of_mem _ ((hmem y).mpr hy)
    · obtain ⟨k, rfl⟩ := Nat.exists_eq_add_of_le' hf
      simp only [length_cons, ← Nat.add_assoc, meetsNode, h.parent hentry hdir]
      by_cases hn : c = node
      · simp [hn]
      · rw [if_neg hn, if_neg (h.tree.ne_of_edge hdc).symm, hmeet node _ (by omega)]
        simp [Ne.symm hn]

theorem TreeInv.meets (h : TreeInv s) (hp : ReflTransGen s.Entry root p) (hdir : (s.node p).mode = .dir)
    (node : Nat) : ∃ b, meetsNode s node s.next p = some b ∧ (b = true ↔ ReflTransGen s.Entry node p) := by
  obtain ⟨l, hnd, hlt, hmem, hmeet⟩ := h.ancestors hp hdir
  have hlen : l.length ≤ s.next := by
    have hsub : l ⊆ List.range s.next := fun y hy => mem_range.2 (hlt y hy)
    simpa using (subperm_of_subset hnd hsub).length_le
  exact ⟨_, hmeet node s.next hlen, by rw [decide_eq_true_eq, hmem]⟩

/-! ### The operations -/

inductive TreeOp
  | create (path : Str) (followFinal : Bool)
  | symlink (target path : Str)
  | mkdir (path : Str)
  | link (oldpath newpath : Str)
  | unlink (path : Str)
  | rmdir (path : Str)
  | rename (oldpath newpath : Str)

/-- A `NULL` of the creation counts as an error. -/
def TreeOp.exec (maxPath : Nat) (s : SbInfo) : TreeOp → Option (Int × SbInfo)
  | .create path followFinal =>
    some (if (tmpfsOpenLinkLocked maxPath s path followFinal).1.isSome then 0 else enoent,
      (tmpfsOpenLinkLocked maxPath s path followFinal).2)
  | .symlink target path => some (tmpfsSymlinkOp maxPath s target path)
  | .mkdir path => some (tmpfsMkdirOp maxPath s path)
  | .link oldpath newpath => some (tmpfsLinkOp maxPath s oldpath newpath)
  | .unlink path => some (tmpfsUnlinkOp maxPath s path)
  | .rmdir path => some (tmpfsRmdirOp maxPath s path)
  | .rename oldpath newpath => tmpfsRenameOp maxPath s oldpath newpath

/-- A renaming that finds its node moves it to a directory; a new link can be counted. -/
def TreeOp.Safe (maxPath : Nat) (s : SbInfo) : TreeOp → Prop
  | .rename oldpath newpath => ∀ d₁ n₁ d₂ n₂, tmpfsWalkParent maxPath s oldpath = some (d₁, n₁) →
    tmpfsWalkParent maxPath s newpath = some (d₂, n₂) → badName n₁ = false → badName n₂ = false →
    (tmpfsDirLookup s d₁ n₁).isSome → (s.node d₂).mode = .dir
  | .link oldpath _ => ∀ x, tmpfsWalk s oldpath = some x → (s.node x).links + 1 < 2 ^ 32
  | _ => True

/-- The tree is kept, and nothing changes with an error. -/
def Kept (s : SbInfo) (r : Int × SbInfo) : Prop := TreeInv r.2 ∧ (r.1 ≠ 0 → r.2 = s)

theorem TreeInv.kept (h : TreeInv s) (e : Int) : Kept s (e, s) := ⟨h, fun _ => rfl⟩

theorem Kept.changed {s' : SbInfo} (h : TreeInv s') : Kept s (0, s') := ⟨h, fun h => absurd rfl h⟩

private theorem newEntry_ok (h : newEntry maxPath s path = .ok (p, last)) :
    ReflTransGen s.Entry root p ∧ (s.node p).mode = .dir ∧ badName last = false ∧ tmpfsDirLookup s p last = none := by
  unfold newEntry at h
  split at h
  · cases h
  rename_i hpar
  split_ifs at h with h1 h2
  cases h
  obtain ⟨hdir, hbad⟩ := not_or.1 h1
  exact ⟨(walkParent_spec hpar).1, not_not.1 hdir, by simpa using hbad, by simpa using h2⟩

section

variable (h : TreeInv s)

include h

theorem TreeInv.addNode (hok : newEntry maxPath s path = .ok (p, last))
    {n : Node} (hn : n.children = []) (hl : n.links = 0) : TreeInv (addNode s p last n) := by
  obtain ⟨hreach, hdir, hname, hfree⟩ := newEntry_ok hok
  have hp := h.reach_lt hreach
  have hch := alloc_children h hn
  have hentry : (tmpfsNodeAlloc s n).Entry = s.Entry := by
    funext d c
    simp only [Entry, hch]
  have hnode : (tmpfsNodeAlloc s n).node s.next = n := by rw [alloc_node, if_pos rfl]
  refine (h.alloc hn hl).add ?_ ?_ hname ?_ (Nat.lt_succ_self _) ?_ (fun _ d he => ?_) (fun _ => ?_)
  · rw [hentry]
    exact hreach
  · rw [alloc_node, if_neg (by omega)]
    exact hdir
  · unfold tmpfsDirLookup
    rw [hch]
    exact hfree
  · have := h.root_lt
    omega
  · rw [hentry] at he
    have := (h.entry_lt he).2
    omega
  · rw [hnode, hl]
    decide

private theorem create_kept (path : Str) (followFinal : Bool) :
    Kept s (if (tmpfsOpenLinkLocked maxPath s path followFinal).1.isSome then 0 else enoent,
      (tmpfsOpenLinkLocked maxPath s path followFinal).2) := by
  unfold tmpfsOpenLinkLocked tmpfsOpenDirect
  split
  · split
    · exact h.kept _
    · split
      · exact h.kept _
      · rename_i hok
        exact Kept.changed (h.addNode hok rfl rfl)
  · exact h.kept _

private theorem symlink_kept (target path : Str) : Kept s (tmpfsSymlinkOp maxPath s target path) := by
  unfold tmpfsSymlinkOp
  split
  · exact h.kept _
  · rename_i hok
    split_ifs
    · exact h.kept _
    · exact Kept.changed (h.addNode hok rfl rfl)

private theorem mkdir_kept (path : Str) : Kept s (tmpfsMkdirOp maxPath s path) := by
  unfold tmpfsMkdirOp
  split_ifs
  · exact h.kept _
  · split
    · exact h.kept _
    · rename_i hok
      exact Kept.changed (h.addNode hok rfl rfl)

end

variable {oldpath newpath : Str}

section

variable (h : TreeInv s)

include h

private theorem link_kept (hs : (TreeOp.link oldpath newpath).Safe maxPath s) :
    Kept s (tmpfsLinkOp maxPath s oldpath newpath) := by
  unfold tmpfsLinkOp
  cases hwalk : tmpfsWalk s oldpath with
  | none => exact h.kept _
  | some x =>
    have hx := walkNames_reach hwalk .refl
    simp only
    split_ifs with hmode
    · exact h.kept _
    cases hpar : tmpfsWalkParent maxPath s newpath with
    | none => exact h.kept _
    | some r =>
      obtain ⟨p, name⟩ := r
      simp only
      split_ifs with hdir hbad hfound
      any_goals exact h.kept _
      · refine Kept.changed (h.add (walkParent_spec hpar).1 (not_not.1 hdir) (by simpa using hbad)
          (by simpa using hfound) (h.reach_lt hx) ?_ (fun hd => absurd hd hmode) fun _ => hs x hwalk)
        rintro rfl
        exact hmode h.root_mode

theorem TreeInv.leaf (hx : (s.node x).mode ≠ .dir) : (s.node x).children = [] := by
  refine eq_nil_iff_forall_not_mem.2 fun e he => ?_
  exact hx (h.tree.branches ⟨e.1, he⟩)

private theorem remove_kept {d : Nat} {name : Str} (hl : tmpfsDirLookup s d name = some x)
    (hx : (s.node x).children = []) : Kept s (tmpfsDirRemove s d name) := by
  refine ⟨h.remove hl hx, fun hr => absurd ?_ hr⟩
  rw [remove_eq hl]

private theorem unlink_kept (path : Str) : Kept s (tmpfsUnlinkOp maxPath s path) := by
  unfold tmpfsUnlinkOp
  split
  · exact h.kept _
  split_ifs with hbad
  · exact h.kept _
  split
  · exact h.kept _
  · rename_i hl
    split_ifs with hmode
    · exact h.kept _
    · exact remove_kept h hl (h.leaf hmode)

private theorem rmdir_kept (path : Str) : Kept s (tmpfsRmdirOp maxPath s path) := by
  unfold tmpfsRmdirOp
  cases hwalk : tmpfsWalk s path with
  | none => exact h.kept _
  | some tn =>
    simp only
    split_ifs with hroot hmode hempty
    any_goals exact h.kept _
    cases hpar : tmpfsWalkParent maxPath s path with
    | none => exact h.kept _
    | some r =>
      obtain ⟨p, last⟩ := r
      simp only
      split_ifs with hbad
      · exact h.kept _
      · have hne : last ≠ [] := by
          rintro rfl
          exact hbad rfl
        exact remove_kept h ((walkParent_spec hpar).2 hne tn hwalk) (not_not.1 hempty)

private theorem replaceTarget_kept {d₁ d₂ : Nat} {n₁ n₂ : Str} (hl : tmpfsDirLookup s d₁ n₁ = some x)
    (hreach : ReflTransGen s.Entry root d₂) (hdir : (s.node d₂).mode = .dir) (hname : badName n₂ = false)
    (hne : ¬(d₁ = d₂ ∧ n₁ = n₂)) (hbelow : ¬ReflTransGen s.Entry x d₂) : Kept s (replaceTarget s x d₁ n₁ d₂ n₂) := by
  unfold replaceTarget
  cases htarget : tmpfsDirLookup s d₂ n₂ with
  | none => exact Kept.changed (h.move hl hreach hdir hname htarget hbelow)
  | some target =>
    simp only
    split_ifs with hsame hm1 hm2 hm3
    any_goals exact h.kept _
    -- the target has no entries, so it can be removed first
    have hempty : (s.node target).children = [] := by
      by_cases hm : (s.node target).mode = .dir
      · exact not_not.1 fun hc => hm3 ⟨hm, hc⟩
      · exact h.leaf hm
    have h' := h.remove htarget hempty
    have hmem := TreeInv.lookup_mem htarget
    have hsub : ∀ {y z}, ReflTransGen (tmpfsDirRemove s d₂ n₂).2.Entry y z → ReflTransGen s.Entry y z :=
      ReflTransGen.mono (fun d c ⟨n, hn⟩ => ⟨n, ((mem_remove_entry htarget h).mp hn).1⟩) _ _
    refine Kept.changed (h'.move ?_ ?_ ?_ hname ?_ fun hb => hbelow (hsub hb))
    · refine Assoc.find_of_mem (h'.keys d₁) ((mem_remove_entry htarget h).mpr ⟨TreeInv.lookup_mem hl, hne⟩)
    · refine Hierarchy.reach_prune hreach (remove_entry htarget h) (no_entry hempty) ?_
      exact h.tree.ne_of_edge ⟨n₂, hmem⟩
    · rw [remove_mode htarget]
      exact hdir
    · unfold tmpfsDirLookup
      rw [remove_children htarget, if_pos rfl]
      refine Assoc.find_eq_none.2 fun hk => ?_
      obtain ⟨e, he, hek⟩ := mem_map.1 hk
      exact Assoc.not_mem_remove (h.keys d₂) (hek ▸ he)

theorem rename_kept (hs : (TreeOp.rename oldpath newpath).Safe maxPath s) :
    ∃ r, tmpfsRenameOp maxPath s oldpath newpath = some r ∧ Kept s r := by
  unfold tmpfsRenameOp
  cases hold : tmpfsWalkParent maxPath s oldpath with
  | none => exact ⟨_, rfl, h.kept _⟩
  | some r1 =>
    cases hnew : tmpfsWalkParent maxPath s newpath with
    | none => exact ⟨_, rfl, h.kept _⟩
    | some r2 =>
      obtain ⟨d1, n1⟩ := r1
      obtain ⟨d2, n2⟩ := r2
      simp only
      by_cases hbad : badName n1 = true ∨ badName n2 = true
      · rw [if_pos hbad]
        exact ⟨_, rfl, h.kept _⟩
      rw [if_neg hbad]
      obtain ⟨hb1, hb2⟩ := not_or.1 hbad
      cases hl : tmpfsDirLookup s d1 n1 with
      | none => exact ⟨_, rfl, h.kept _⟩
      | some x =>
        have hdir := hs d1 n1 d2 n2 hold hnew (by simpa using hb1) (by simpa using hb2) (by rw [hl]; rfl)
        have hreach := (walkParent_spec hnew).1
        have hmove := replaceTarget_kept h hl hreach hdir (by simpa using hb2)
        simp only
        split_ifs with hsame hmode
        · exact ⟨_, rfl, h.kept _⟩
        · obtain ⟨b, hmeet, hb⟩ := h.meets hreach hdir x
          rw [hmeet]
          cases b with
          | true => exact ⟨_, rfl, h.kept _⟩
          | false => exact ⟨_, rfl, hmove hsame fun hx => by cases hb.2 hx⟩
        · refine ⟨_, rfl, hmove hsame fun hx => ?_⟩
          -- what is no directory has nothing below it
          rcases ReflTransGen.cases_head hx with rfl | ⟨c, hc, -⟩
          · exact hmode hdir
          · exact hmode (h.tree.branches hc)

/-- The step lemma: an operation returns, keeps the tree, and changes nothing if it fails. -/
theorem TreeOp.exec_kept (op : TreeOp) (hs : op.Safe maxPath s) : ∃ r, op.exec maxPath s = some r ∧ Kept s r := by
  cases op with
  | create path followFinal => exact ⟨_, rfl, create_kept h path followFinal⟩
  | symlink target path => exact ⟨_, rfl, symlink_kept h target path⟩
  | mkdir path => exact ⟨_, rfl, mkdir_kept h path⟩
  | link oldpath newpath => exact ⟨_, rfl, link_kept h hs⟩
  | unlink path => exact ⟨_, rfl, unlink_kept h path⟩
  | rmdir path => exact ⟨_, rfl, rmdir_kept h path⟩
  | rename oldpath newpath => exact rename_kept h hs

end

theorem TreeInv.empty : TreeInv .empty := by
  have hnode : ∀ d, (SbInfo.empty.node d).children = [] := by
    intro d
    unfold SbInfo.empty
    by_cases hd : d = root
    · subst hd
      rfl
    · simp [hd]
  have hno : ∀ {d name c}, ¬(name, c) ∈ (SbInfo.empty.node d).children := by
    intro d name c
    rw [hnode d]
    exact not_mem_nil
  constructor
  · exact ⟨fun ⟨_, hm⟩ => absurd hm hno, fun d ⟨_, hm⟩ => hno hm, fun ⟨_, hm⟩ => absurd hm hno,
      fun _ ⟨_, hm⟩ => absurd hm hno⟩
  · rfl
  · rfl
  · exact Nat.one_pos
  · exact fun hm => absurd hm hno
  · intro d
    rw [hnode d]
    exact nodup_nil
  · exact fun hm => absurd hm hno
  · exact fun hm => absurd hm hno
  · exact fun hm => absurd hm hno
  · intro x hx hmode
    obtain rfl : x = root := Nat.lt_one_iff.1 hx
    exact absurd rfl hmode

/-- A finite tree of directories below the root, with counted links to everything else. -/
structure IsTree (s : SbInfo) : Prop where
  only_dirs : ∀ d, (s.node d).children ≠ [] → (s.node d).mode = .dir
  names_unique : ∀ d, ((s.node d).children.map Prod.fst).Nodup
  names_ok : ∀ {d name c}, (name, c) ∈ (s.node d).children → name ≠ [] ∧ name ≠ ['.'] ∧ name ≠ ['.', '.']
  root_unnamed : ∀ d, ¬s.Entry d root
  one_entry : ∀ {d d' name name' c}, (name, c) ∈ (s.node d).children → (name', c) ∈ (s.node d').children →
    (s.node c).mode = .dir → d = d' ∧ name = name'
  parent : ∀ {d c}, s.Entry d c → (s.node c).mode = .dir → (s.node c).parent = some d
  acyclic : ∀ d, ¬TransGen s.Entry d d
  links : ∀ {x}, x < s.next → (s.node x).mode ≠ .dir → (s.node x).links = s.entryCount x
  reachable : ∀ {d c}, s.Entry d c → ReflTransGen s.Entry root c
  finite : ∀ {d c}, s.Entry d c → d < s.next ∧ c < s.next

theorem TreeInv.isTree (h : TreeInv s) : IsTree s where
  only_dirs d hd := by
    by_contra hmode
    exact hd (h.leaf hmode)
  names_unique := h.keys
  names_ok hmem := by simpa [badName, and_assoc] using h.names hmem
  root_unnamed := h.tree.root_free
  one_entry hm hm' hc := ⟨h.tree.single hc ⟨_, hm⟩ ⟨_, hm'⟩, h.one hm hm' hc⟩
  parent he hc := by
    obtain ⟨name, hm⟩ := he
    exact h.parent hm hc
  acyclic := h.tree.acyclic
  links := h.links
  reachable := h.tree.reach_child
  finite := h.entry_lt

def TreeStep (maxPath : Nat) (s : SbInfo) (op : TreeOp) (s' : SbInfo) : Prop := ∃ r, op.exec maxPath s = some (r, s')

/-- In every run of safe operations there is a tree in each state reached, and a further safe operation returns and
leaves it as it is if it fails. -/
theorem tree_runs {tr : List TreeOp}
    (h : Run (fun s op s' => TreeStep maxPath s op s' ∧ op.Safe maxPath s) .empty tr s) :
    IsTree s ∧ ∀ op : TreeOp, op.Safe maxPath s → ∃ r s', op.exec maxPath s = some (r, s') ∧ (r ≠ 0 → s' = s) := by
  have hinv : TreeInv s := by
    refine h.invariant_state TreeInv TreeInv.empty ?_
    rintro s op s' hi ⟨⟨r, hr⟩, hs⟩
    obtain ⟨r', hr', hk⟩ := op.exec_kept hi hs
    rw [hr] at hr'
    cases hr'
    exact hk.1
  refine ⟨hinv.isTree, fun op hs => ?_⟩
  obtain ⟨r, hr, hk⟩ := op.exec_kept hinv hs
  exact ⟨r.1, r.2, hr, hk.2⟩

def TreeOp.execAll (s : SbInfo) (ops : List TreeOp) : SbInfo :=
  ops.foldl (fun s op => ((op.exec 4080 s).map Prod.snd).getD s) s

/-- A file in a directory gets a second link, and the directory is renamed. -/
theorem tree_runs_two : IsTree (TreeOp.execAll .empty [.mkdir ['d'], .create ['d', '/', 'a'] true,
    .link ['d', '/', 'a'] ['b'], .rename ['d'] ['e']]) := by
  have hrun : Run (fun s op s' => TreeStep 4080 s op s' ∧ op.Safe 4080 s) empty [] .empty := .nil
  have hrun := hrun.snoc (e := TreeOp.mkdir ['d']) ⟨⟨0, rfl⟩, trivial⟩
  have hrun := hrun.snoc (e := TreeOp.create ['d', '/', 'a'] true) ⟨⟨0, rfl⟩, trivial⟩
  have hrun := hrun.snoc (e := TreeOp.link ['d', '/', 'a'] ['b']) ⟨⟨0, rfl⟩, by rintro x ⟨⟩; decide⟩
  have hrun := hrun.snoc (e := TreeOp.rename ['d'] ['e']) ⟨⟨0, rfl⟩, by rintro d₁ n₁ d₂ n₂ ⟨⟩ ⟨⟩ - - -; rfl⟩
  exact (tree_runs hrun).1

/-- A renaming into a regular file succeeds: the file has an entry then. -/
theorem rename_into_file : ∃ tr s, Run (TreeStep 4080) .empty tr s ∧ (s.node 2).mode = .reg ∧
    (s.node 2).children = [(['x'], 1)] := by
  have hrun : Run (TreeStep 4080) empty [] .empty := .nil
  have hrun := hrun.snoc (e := TreeOp.create ['a'] true) ⟨0, rfl⟩
  have hrun := hrun.snoc (e := TreeOp.create ['f'] true) ⟨0, rfl⟩
  have hrun := hrun.snoc (e := TreeOp.rename ['a'] ['f', '/', 'x']) ⟨0, rfl⟩
  exact ⟨_, _, hrun, rfl, rfl⟩

end Mos.Tmpfs
