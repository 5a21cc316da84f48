import Mos.Epoll.Ready
import Mos.Lib.Steps

/-!
# The graph of eventpolls

`epoll_find`, `epoll_down`, `epoll_up`, `epoll_release_file`, `epoll_release` and `sys_epoll_ctl` of
`src/fs/impl/epoll.c` over all eventpolls.  An eventpoll stands for the file that it belongs to, and an interest is
known by its eventpoll, the watched file and the descriptor.  The interests of an eventpoll (`interests`) and those in
a file (`f_ep_links`) are parts of one list.

An eventpoll watches another one if it has an interest in it.  The searches for the longest paths through a new
interest are exact, so that it is refused exactly when there would be a cycle or a path of more than four edges.
-/

namespace Mos.Epoll

open Lib Function List

def eperm : Int := -1

def ebadf : Int := -9

def efault : Int := -14

def einval : Int := -22

def epollDepth : Nat := 5

def epollCtlAdd : Int := 1

def epollCtlDel : Int := 2

def epollCtlMod : Int := 3

structure Interest where
  ep : Nat
  file : Nat
  fd : Int
  deriving DecidableEq

structure Graph where
  interests : List Interest
  /-- `f_fop == &epoll_fops`. -/
  isEpoll : Nat → Bool
  /-- The list of the interests in a file has been set up. -/
  inited : Nat → Bool

namespace Graph

def empty : Graph := ⟨[], fun _ => false, fun _ => false⟩

/-- `epoll_down`, where `n` is `EPOLL_DEPTH - depth`. -/
def epollDown (g : Graph) (target : Nat) : (n ep : Nat) → Nat
  | 0, _ => epollDepth
  | n + 1, ep =>
    if ep = target then epollDepth
    else
      (g.interests.filter fun x => x.ep = ep).foldl (fun longest x =>
        if g.isEpoll x.file then
          let k := 1 + g.epollDown target n x.file
          if k > longest then k else longest
        else longest) 0

/-- `epoll_up`, where `n` is `EPOLL_DEPTH - depth`. -/
def epollUp (g : Graph) : (n ep : Nat) → Nat
  | 0, ep => if g.inited ep then epollDepth else 0
  | n + 1, ep =>
    if g.inited ep then
      (g.interests.filter fun x => x.file = ep).foldl (fun longest x =>
        let k := 1 + g.epollUp n x.ep
        if k > longest then k else longest) 0
    else 0

/-- The end of `EPOLL_CTL_ADD`. -/
def insert (g : Graph) (x : Interest) : Graph :=
  { g with interests := x :: g.interests, inited := update g.inited x.file true }

/-- `epoll_remove`. -/
def remove (g : Graph) (x : Interest) : Graph := { g with interests := g.interests.erase x }

end Graph

/-- What a call finds: whether the event can be read and asks for `EPOLLEXCLUSIVE`, whether a file other than an
eventpoll can be polled, whether there is memory, and whether the hook `poll` subscribes. -/
structure CtlEnv where
  access : Bool
  exclusive : Bool
  pollable : Bool
  alloc : Bool
  supported : Bool

/-- `sys_epoll_ctl`, from the files that the two descriptors refer to. -/
def sysEpollCtl (g : Graph) (epfp fp : Option Nat) (op fd : Int) (env : CtlEnv) : Int × Graph :=
  match epfp, fp with
  | none, _ => (ebadf, g)
  | some _, none => (ebadf, g)
  | some ep, some f =>
    if !g.isEpoll ep ∨ ep = f ∨ (op ≠ epollCtlAdd ∧ op ≠ epollCtlMod ∧ op ≠ epollCtlDel) then (einval, g)
    else if op ≠ epollCtlDel ∧ !env.access then (efault, g)
    else if op ≠ epollCtlDel ∧ env.exclusive then (einval, g)
    else if !g.isEpoll f ∧ !env.pollable then (eperm, g)
    else if op = epollCtlAdd then
      if ⟨ep, f, fd⟩ ∈ g.interests then (eexist, g)
      else if g.isEpoll f ∧ g.epollUp epollDepth ep + 1 + g.epollDown ep epollDepth f ≥ epollDepth then (eloop, g)
      else if !env.alloc then (enomem, g)
      else if !env.supported then (eperm, g)
      else (0, g.insert ⟨ep, f, fd⟩)
    else if ⟨ep, f, fd⟩ ∉ g.interests then (enoent, g)
    else if op = epollCtlDel then (0, g.remove ⟨ep, f, fd⟩)
    else (0, g)

def epollReleaseFile (g : Graph) (f : Nat) : Graph := { g with interests := g.interests.filter fun x => x.file ≠ f }

def epollRelease (g : Graph) (f : Nat) : Graph := { g with interests := g.interests.filter fun x => x.ep ≠ f }

/-- The last reference to a file is dropped. -/
def releaseFile (g : Graph) (f : Nat) : Graph :=
  let g := epollReleaseFile g f
  let g := if g.isEpoll f then epollRelease g f else g
  { g with isEpoll := update g.isEpoll f false, inited := update g.inited f false }

inductive GraphOp
  | create (f : Nat) (epoll : Bool)
  | ctl (epfp fp : Option Nat) (op fd : Int) (env : CtlEnv)
  | release (f : Nat)

def GraphStep (g : Graph) : GraphOp → Graph → Prop
  | .create f epoll, g' => (∀ x ∈ g.interests, x.ep ≠ f ∧ x.file ≠ f) ∧
      g' = { g with isEpoll := update g.isEpoll f epoll, inited := update g.inited f false }
  | .ctl epfp fp op fd env, g' => g' = (sysEpollCtl g epfp fp op fd env).2
  | .release f, g' => g' = releaseFile g f

variable {n ep f target : Nat}

namespace Graph

def Watches (g : Graph) (a b : Nat) : Prop := g.isEpoll b = true ∧ ∃ x ∈ g.interests, x.ep = a ∧ x.file = b

structure Inv (g : Graph) : Prop where
  bounded : Bounded g.Watches 4
  nodup : g.interests.Nodup
  owner : ∀ x ∈ g.interests, g.isEpoll x.ep = true
  inited : ∀ x ∈ g.interests, g.inited x.file = true

variable {g g' : Graph} {a b : Nat}

/-! ### The searches -/

/-- The eventpolls that an eventpoll watches. -/
def below (g : Graph) (ep : Nat) : List Nat :=
  ((g.interests.filter fun x => x.ep = ep).filter fun x => g.isEpoll x.file).map Interest.file

/-- The eventpolls that watch an eventpoll. -/
def above (g : Graph) (ep : Nat) : List Nat := (g.interests.filter fun x => x.file = ep).map Interest.ep

private theorem mem_below : b ∈ g.below a ↔ g.Watches a b := by
  simp only [below, mem_map, mem_filter, decide_eq_true_eq]
  constructor
  · intro h
    obtain ⟨x, ⟨⟨hx, hep⟩, hepoll⟩, rfl⟩ := h
    exact ⟨hepoll, x, hx, hep, rfl⟩
  · intro h
    obtain ⟨hepoll, x, hx, hep, rfl⟩ := h
    exact ⟨x, ⟨⟨hx, hep⟩, hepoll⟩, rfl⟩

private theorem mem_above (hb : g.isEpoll b = true) : a ∈ g.above b ↔ g.Watches a b := by
  simp only [above, mem_map, mem_filter, decide_eq_true_eq]
  constructor
  · intro h
    obtain ⟨x, ⟨hx, hfile⟩, rfl⟩ := h
    exact ⟨hb, x, hx, rfl, hfile⟩
  · intro h
    obtain ⟨-, x, hx, rfl, hfile⟩ := h
    exact ⟨x, ⟨hx, hfile⟩, rfl⟩

private theorem epollDown_eq (g : Graph) (target n ep : Nat) :
    g.epollDown target n ep = explore g.below (fun x => x = target) epollDepth n ep := by
  induction n generalizing ep with
  | zero => rfl
  | succ n ih =>
    rw [epollDown, explore]
    by_cases htarget : ep = target
    · simp [htarget]
    · simp only [htarget, if_false, decide_false, Bool.false_eq_true, below, foldl_map, foldl_filter, ih]
      congr 1
      funext longest x
      split_ifs <;> omega

private theorem epollUp_eq (h : g.Inv) (hep : g.isEpoll ep = true) (hdepth : ∀ m a, Steps g.Watches m a ep → m < n) :
    g.epollUp n ep = explore g.above (fun _ => false) epollDepth n ep := by
  induction n generalizing ep with
  | zero => exact absurd (hdepth 0 ep (.refl ep)) (Nat.not_lt_zero 0)
  | succ n ih =>
    rw [epollUp, explore]
    by_cases hinit : g.inited ep = true
    · have hfold : ∀ x ∈ g.interests.filter (fun x => x.file = ep),
          g.epollUp n x.ep = explore g.above (fun _ => false) epollDepth n x.ep := by
        intro x hx
        obtain ⟨hx, hfile⟩ := mem_filter.1 hx
        apply ih (h.owner x hx)
        intro m a hs
        have := hdepth (m + 1) a (hs.snoc ⟨hep, x, hx, rfl, by simpa using hfile⟩)
        omega
      simp only [hinit, if_true, Bool.false_eq_true, if_false, above, foldl_map]
      apply foldl_ext
      intro longest x hx
      rw [hfold x hx]
      split_ifs <;> omega
    · have hnone : g.interests.filter (fun x => x.file = ep) = [] := by
        apply filter_eq_nil_iff.2
        intro x hx hfile
        rw [← show x.file = ep by simpa using hfile] at hinit
        exact hinit (h.inited x hx)
      simp [hinit, above, hnone]

private theorem steps_below : Steps (fun x y => y ∈ g.below x) n a b ↔ Steps g.Watches n a b :=
  ⟨fun h => h.mono fun _ _ => mem_below.1, fun h => h.mono fun _ _ => mem_below.2⟩

private theorem steps_above (h : g.Inv) (hb : g.isEpoll b = true) :
    Steps (fun x y => y ∈ g.above x) n b a ↔ Steps g.Watches n a b := by
  constructor
  · intro hs
    induction hs with
    | refl => exact .refl _
    | head hr _ ih =>
      have hwatch := (mem_above hb).mp hr
      obtain ⟨-, x, hx, rfl, -⟩ := hwatch
      exact (ih (h.owner x hx)).snoc ((mem_above hb).mp hr)
  · intro hs
    exact hs.flip.mono fun x y hyx => (mem_above hyx.1).mpr hyx

private theorem epollUp_longest (h : g.Inv) (hep : g.isEpoll ep = true) :
    (∃ a, Steps g.Watches (g.epollUp epollDepth ep) a ep) ∧
      ∀ m a, Steps g.Watches m a ep → m ≤ g.epollUp epollDepth ep := by
  have hdepth : ∀ m a, Steps g.Watches m a ep → m < epollDepth := by
    intro m a hs
    have := h.bounded m a ep hs
    show m < 5
    omega
  rw [epollUp_eq h hep hdepth]
  have hup : ∀ m a, Steps (fun x y => y ∈ g.above x) m ep a → m < epollDepth :=
    fun m a hs => hdepth m a ((steps_above h hep).mp hs)
  obtain ⟨⟨a, ha⟩, hall⟩ := explore_longest epollDepth (fun _ _ _ => rfl) hup
  exact ⟨⟨a, (steps_above h hep).mp ha⟩, fun m a hs => hall m a ((steps_above h hep).mpr hs)⟩

/-- `epoll_down` finds the longest path from an eventpoll, unless it leads to the target. -/
theorem epollDown_longest (h : g.Inv) (hback : ∀ n, ¬Steps g.Watches n f target) :
    (∃ b, Steps g.Watches (g.epollDown target epollDepth f) f b) ∧
      ∀ m b, Steps g.Watches m f b → m ≤ g.epollDown target epollDepth f := by
  have hstop : ∀ m b, Steps (fun x y => y ∈ g.below x) m f b → decide (b = target) = false := by
    intro m b hs
    apply decide_eq_false
    intro hb
    exact hback m (hb ▸ steps_below.1 hs)
  have hdepth : ∀ m b, Steps (fun x y => y ∈ g.below x) m f b → m < epollDepth := by
    intro m b hs
    have := h.bounded m f b (steps_below.1 hs)
    show m < 5
    omega
  rw [epollDown_eq]
  obtain ⟨⟨b, hb⟩, hall⟩ := explore_longest epollDepth hstop hdepth
  exact ⟨⟨b, steps_below.1 hb⟩, fun m b hs => hall m b (steps_below.2 hs)⟩

private theorem depth_check_iff (h : g.Inv) (hep : g.isEpoll ep = true) :
    g.epollUp epollDepth ep + 1 + g.epollDown ep epollDepth f ≥ epollDepth ↔
      ¬Bounded (insertEdge g.Watches ep f) 4 := by
  obtain ⟨⟨a, ha⟩, hup⟩ := epollUp_longest h hep
  rw [bounded_insertEdge_iff h.bounded]
  constructor
  · intro hge hkeep
    obtain ⟨hback, hshort⟩ := hkeep
    obtain ⟨⟨b, hb⟩, -⟩ := epollDown_longest h hback
    have := hshort _ _ a b ha hb
    unfold epollDepth at *
    omega
  · intro hbreak
    by_contra hlt
    apply hbreak
    have hback : ∀ n, ¬Steps g.Watches n f ep := by
      intro n hs
      have hle : epollDepth ≤ g.epollDown ep epollDepth f := by
        rw [epollDown_eq]
        exact limit_le_explore _ (steps_below.2 hs) (decide_eq_true rfl)
      omega
    refine ⟨hback, ?_⟩
    intro i j x y hi hj
    have := hup i x hi
    have := (epollDown_longest h hback).2 j y hj
    unfold epollDepth at *
    omega

/-! ### Changes of the graph -/

private theorem insert_watches (g : Graph) (ep f : Nat) (fd : Int) (a b : Nat) :
    (g.insert ⟨ep, f, fd⟩).Watches a b ↔ g.Watches a b ∨ g.isEpoll f = true ∧ a = ep ∧ b = f := by
  unfold Watches insert
  simp only [mem_cons]
  constructor
  · intro h
    obtain ⟨hb, x, rfl | hx, rfl, rfl⟩ := h
    · exact .inr ⟨hb, rfl, rfl⟩
    · exact .inl ⟨hb, x, hx, rfl, rfl⟩
  · intro h
    rcases h with ⟨hb, x, hx, rfl, rfl⟩ | ⟨hf, rfl, rfl⟩
    · exact ⟨hb, x, .inr hx, rfl, rfl⟩
    · exact ⟨hf, _, .inl rfl, rfl, rfl⟩

/-- There would be a cycle, or a path of more than four edges. -/
def Breaks (g : Graph) : Prop :=
  (∃ n a, Steps g.Watches (n + 1) a a) ∨ ∃ n a b, Steps g.Watches n a b ∧ 4 < n

private theorem breaks_iff : g.Breaks ↔ ¬Bounded g.Watches 4 := by
  constructor
  · intro h hB
    rcases h with ⟨n, a, hs⟩ | ⟨n, a, b, hs, hn⟩
    · exact hB.acyclic n a hs
    · have := hB n a b hs
      omega
  · intro h
    by_contra hno
    apply h
    intro n a b hs
    by_contra hlt
    exact hno (.inr ⟨n, a, b, hs, by omega⟩)

private theorem insert_breaks_iff (h : g.Inv) (ep f : Nat) (fd : Int) (hep : g.isEpoll ep = true) :
    (g.insert ⟨ep, f, fd⟩).Breaks ↔ g.isEpoll f = true ∧
      g.epollUp epollDepth ep + 1 + g.epollDown ep epollDepth f ≥ epollDepth := by
  rw [breaks_iff]
  by_cases hf : g.isEpoll f = true
  · have hwatch : (g.insert ⟨ep, f, fd⟩).Watches = insertEdge g.Watches ep f := by
      funext a b
      rw [eq_iff_iff, insert_watches, hf]
      simp [insertEdge]
    rw [hwatch, depth_check_iff h hep]
    simp [hf]
  have hwatch : (g.insert ⟨ep, f, fd⟩).Watches = g.Watches := by
    funext a b
    rw [eq_iff_iff, insert_watches]
    simp [hf]
  rw [hwatch]
  simp [hf, h.bounded]

theorem Inv.sub (h : g.Inv) (hsub : g'.interests.Sublist g.interests)
    (hepoll : ∀ x ∈ g'.interests, g'.isEpoll x.ep = g.isEpoll x.ep ∧ g'.isEpoll x.file = g.isEpoll x.file)
    (hinit : ∀ x ∈ g'.interests, g'.inited x.file = g.inited x.file) : g'.Inv := by
  constructor
  · apply h.bounded.mono
    intro a b hw
    obtain ⟨hb, x, hx, rfl, rfl⟩ := hw
    exact ⟨(hepoll x hx).2 ▸ hb, x, hsub.mem hx, rfl, rfl⟩
  · exact h.nodup.sublist hsub
  · intro x hx
    rw [(hepoll x hx).1]
    exact h.owner x (hsub.mem hx)
  · intro x hx
    rw [hinit x hx]
    exact h.inited x (hsub.mem hx)

theorem Inv.insert (h : g.Inv) {fd : Int} (hep : g.isEpoll ep = true)
    (hnew : ⟨ep, f, fd⟩ ∉ g.interests) (hkeep : ¬(g.insert ⟨ep, f, fd⟩).Breaks) : (g.insert ⟨ep, f, fd⟩).Inv := by
  constructor
  · rw [breaks_iff, not_not] at hkeep
    exact hkeep
  · exact nodup_cons.2 ⟨hnew, h.nodup⟩
  · exact forall_mem_cons.2 ⟨hep, h.owner⟩
  · intro x hx
    by_cases hfile : x.file = f
    · simp [Graph.insert, hfile]
    · rcases mem_cons.1 hx with rfl | hx
      · exact absurd rfl hfile
      · simp [Graph.insert, update_of_ne hfile, h.inited x hx]

end Graph

variable {g : Graph}

private theorem ctl_inv (h : g.Inv) (epfp fp : Option Nat) (op fd : Int) (env : CtlEnv) :
    (sysEpollCtl g epfp fp op fd env).2.Inv := by
  unfold sysEpollCtl
  split
  · exact h
  · exact h
  rename_i ep f
  split_ifs with h1 h2 h3 h4 h5 h6 h7
  any_goals exact h
  · have hep : g.isEpoll ep = true := by
      by_contra hno
      exact h1 (.inl (by simpa using hno))
    apply h.insert hep h6
    rw [Graph.insert_breaks_iff h ep f fd hep]
    exact h7
  · exact h.sub erase_sublist (fun _ _ => ⟨rfl, rfl⟩) fun _ _ => rfl

theorem releaseFile_inv (h : g.Inv) (f : Nat) : (releaseFile g f).Inv := by
  have hsub : (releaseFile g f).interests.Sublist g.interests := by
    unfold releaseFile
    dsimp only
    split_ifs
    · exact filter_sublist.trans filter_sublist
    · exact filter_sublist
  have hgone : ∀ x ∈ (releaseFile g f).interests, x.ep ≠ f ∧ x.file ≠ f := by
    intro x hx
    unfold releaseFile at hx
    dsimp only at hx
    split_ifs at hx with hf
    · simp only [epollRelease, epollReleaseFile, mem_filter, decide_eq_true_eq] at hx
      exact ⟨hx.2, hx.1.2⟩
    simp only [epollReleaseFile, mem_filter, decide_eq_true_eq] at hx
    refine ⟨?_, hx.2⟩
    -- what is no eventpoll has no interests
    intro hep
    exact hf (hep ▸ h.owner x hx.1)
  have hkeep : ∀ i, i ≠ f → (releaseFile g f).isEpoll i = g.isEpoll i ∧ (releaseFile g f).inited i = g.inited i := by
    intro i hi
    unfold releaseFile
    dsimp only
    split_ifs <;> exact ⟨update_of_ne hi .., update_of_ne hi ..⟩
  apply h.sub hsub
  · intro x hx
    exact ⟨(hkeep x.ep (hgone x hx).1).1, (hkeep x.file (hgone x hx).2).1⟩
  · intro x hx
    exact (hkeep x.file (hgone x hx).2).2

theorem GraphStep.inv {g' : Graph} {op : GraphOp} (h : g.Inv) (hstep : GraphStep g op g') : g'.Inv := by
  cases op with
  | create f epoll =>
    obtain ⟨hnew, rfl⟩ := hstep
    refine h.sub (List.Sublist.refl g.interests) ?_ ?_
    · intro x hx
      exact ⟨update_of_ne (hnew x hx).1 .., update_of_ne (hnew x hx).2 ..⟩
    · intro x hx
      exact update_of_ne (hnew x hx).2 ..
  | ctl epfp fp op fd env =>
    cases hstep
    exact ctl_inv h epfp fp op fd env
  | release f =>
    cases hstep
    exact releaseFile_inv h f

theorem empty_inv : Graph.empty.Inv := by
  have hnone : ∀ x, x ∉ Graph.empty.interests := fun x => not_mem_nil
  refine ⟨?_, .nil, fun x hx => absurd hx (hnone x), fun x hx => absurd hx (hnone x)⟩
  intro n a b hs
  cases hs with
  | refl => omega
  | head hr =>
    obtain ⟨-, x, hx, -⟩ := hr
    exact absurd hx (hnone x)

theorem not_breaks_of_mem (h : g.Inv) {x : Interest} (hx : x ∈ g.interests) : ¬(g.insert x).Breaks := by
  rw [Graph.breaks_iff, not_not]
  apply h.bounded.mono
  intro a b hw
  obtain ⟨hb, y, hy, rfl, rfl⟩ := hw
  rcases mem_cons.1 hy with rfl | hy
  · exact ⟨hb, y, hx, rfl, rfl⟩
  · exact ⟨hb, y, hy, rfl, rfl⟩

/-- The arguments of `EPOLL_CTL_ADD` are in order. -/
def AddArgs (g : Graph) (ep f : Nat) (env : CtlEnv) : Prop :=
  g.isEpoll ep = true ∧ ep ≠ f ∧ env.access = true ∧ env.exclusive = false

/-- `EPOLL_CTL_ADD` is refused with `ELOOP` exactly if its arguments are in order and the interest would break the
graph. -/
theorem ctl_eloop_iff (h : g.Inv) (ep f : Nat) (fd : Int) (env : CtlEnv) :
    (sysEpollCtl g (some ep) (some f) epollCtlAdd fd env).1 = eloop ↔
      AddArgs g ep f env ∧ (g.insert ⟨ep, f, fd⟩).Breaks := by
  unfold sysEpollCtl
  dsimp only
  constructor
  · intro hret
    split_ifs at hret with h1 h2 h3 h4 h5 h6 h7
    any_goals (exfalso; dsimp only at hret; revert hret; decide)
    have hep : g.isEpoll ep = true := by
      by_contra hno
      exact h1 (.inl (by simpa using hno))
    refine ⟨⟨hep, fun heq => h1 (.inr (.inl heq)), ?_, ?_⟩, (Graph.insert_breaks_iff h ep f fd hep).mpr h7⟩
    · by_contra hno
      exact h2 ⟨by decide, by simpa using hno⟩
    · by_contra hno
      exact h3 ⟨by decide, by simpa using hno⟩
  · intro hb
    obtain ⟨⟨hep, hne, haccess, hexclusive⟩, hbreaks⟩ := hb
    have hcheck := (Graph.insert_breaks_iff h ep f fd hep).mp hbreaks
    have hnew : ⟨ep, f, fd⟩ ∉ g.interests := fun hx => not_breaks_of_mem h hx hbreaks
    rw [if_neg, if_neg, if_neg, if_neg, if_pos rfl, if_neg hnew, if_pos hcheck]
    · simp [hcheck.1]
    · simp [hexclusive]
    · simp [haccess]
    · simp [hep, hne]

/-- **The graph of eventpolls.**  After every run there is no cycle, no path has more than four edges and an eventpoll
has at most one interest for a file and descriptor; the two searches find the longest paths to and from an eventpoll,
and `EPOLL_CTL_ADD` with arguments in order is refused with `ELOOP` exactly if the interest would break this. -/
theorem epoll_graph_runs {tr : List GraphOp} {g : Graph} (hrun : Run GraphStep .empty tr g) :
    (∀ n a, ¬Steps g.Watches (n + 1) a a) ∧ (∀ n a b, Steps g.Watches n a b → n ≤ 4) ∧ g.interests.Nodup ∧
    (∀ ep, g.isEpoll ep = true → (∃ a, Steps g.Watches (g.epollUp epollDepth ep) a ep) ∧
      ∀ m a, Steps g.Watches m a ep → m ≤ g.epollUp epollDepth ep) ∧ (∀ f target, (∀ n, ¬Steps g.Watches n f target) →
      (∃ b, Steps g.Watches (g.epollDown target epollDepth f) f b) ∧
        ∀ m b, Steps g.Watches m f b → m ≤ g.epollDown target epollDepth f) ∧
    ∀ ep f fd env, (sysEpollCtl g (some ep) (some f) epollCtlAdd fd env).1 = eloop ↔
      AddArgs g ep f env ∧ (g.insert ⟨ep, f, fd⟩).Breaks := by
  have h : g.Inv := hrun.invariant_state Graph.Inv empty_inv fun _ _ _ hinv hstep => hstep.inv hinv
  exact ⟨h.bounded.acyclic, h.bounded, h.nodup, fun ep hep => Graph.epollUp_longest h hep,
    fun f target hback => Graph.epollDown_longest h hback, ctl_eloop_iff h⟩

def ctlInOrder : CtlEnv := ⟨true, false, true, true, true⟩

def twoEpolls : Graph := ⟨[], update (update (fun _ => false) 0 true) 1 true,
  update (update (fun _ => false) 0 false) 1 false⟩

theorem twoEpolls_run : Run GraphStep .empty [.create 0 true, .create 1 true] twoEpolls := by
  have hfirst : GraphStep .empty (.create 0 true)
      ⟨[], update (fun _ => false) 0 true, update (fun _ => false) 0 false⟩ :=
    ⟨fun x hx => absurd hx not_mem_nil, rfl⟩
  exact (Run.single hfirst).snoc ⟨fun x hx => absurd hx not_mem_nil, rfl⟩

theorem epoll_graph_runs_nested :
    ∃ g, Run GraphStep .empty [.create 0 true, .create 1 true, .ctl (some 0) (some 1) epollCtlAdd 7 ctlInOrder] g ∧
      g.interests = [⟨0, 1, 7⟩] ∧ ∀ ep f fd env, (sysEpollCtl g (some ep) (some f) epollCtlAdd fd env).1 = eloop ↔
        AddArgs g ep f env ∧ (g.insert ⟨ep, f, fd⟩).Breaks := by
  have hstep : GraphStep twoEpolls (.ctl (some 0) (some 1) epollCtlAdd 7 ctlInOrder)
      (sysEpollCtl twoEpolls (some 0) (some 1) epollCtlAdd 7 ctlInOrder).2 := rfl
  have hrun := twoEpolls_run.snoc hstep
  exact ⟨_, hrun, by decide, (epoll_graph_runs hrun).2.2.2.2.2⟩

/-- An eventpoll that is added to itself is refused with `EINVAL`. -/
theorem self_add_not_eloop : ∃ tr g, Run GraphStep .empty tr g ∧
    (g.insert ⟨0, 0, 7⟩).Breaks ∧ (sysEpollCtl g (some 0) (some 0) epollCtlAdd 7 ctlInOrder).1 = einval := by
  refine ⟨_, twoEpolls, twoEpolls_run, .inl ⟨0, 0, ?_⟩, by decide⟩
  have hwatch : (twoEpolls.insert ⟨0, 0, 7⟩).Watches 0 0 := ⟨by decide, ⟨0, 0, 7⟩, mem_cons_self, rfl, rfl⟩
  exact .head hwatch (.refl 0)

end Mos.Epoll
