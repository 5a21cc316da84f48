import Mos.Fs.Exact

/-!
# `resolve_path` under another root

For a task with a root of its own, `resolve_path` puts the root in front of the path but leaves `..` within the path
alone. The normal form of the result stays below the root only if the path does not climb above its start, or climbs
and comes back by the names of the root itself.
-/

namespace Mos.Fs

open Lib List Option

/-- From the directory `dir`, the components climb not at all or come back by the names of `dir`. -/
def Below (dir l : List Str) : Prop := dir.drop (dir.length - (climb l).1) <+: (climb l).2

/-- The root and the path, with single slashes, fit into the buffer. -/
def Fits (maxPath : Nat) (rootPath t : Str) : Prop :=
  collapse t = ['/'] ∨ rootPath.length + (collapse t).length < maxPath

/-- What an absolute path has to satisfy: without the piece before a final `/..` and it, or the dot of a final
`/.`. -/
structure ConfinedAbs (maxPath : Nat) (rootPath p : Str) : Prop where
  fits : p.length < maxPath
  up : ∀ front last, p = front ++ '/' :: (last ++ ['/', '.', '.']) → '/' ∉ last →
    Fits maxPath rootPath (front ++ ['/']) ∧ Below (lexical rootPath) (names front)
  dot : ∀ front, p = front ++ ['/', '.'] → Fits maxPath rootPath (front ++ ['/']) ∧
    Below (lexical rootPath) (names front)
  plain : ¬['/', '.', '.'] <:+ p → ¬['/', '.'] <:+ p → Fits maxPath rootPath p ∧ Below (lexical rootPath) (names p)

def Confined (maxPath : Nat) (rootPath cwd p : Str) : Prop :=
  if p = ['.'] then Fits maxPath rootPath cwd
  else if p = ['.', '.'] then Fits maxPath rootPath (absPath (lexical cwd).dropLast)
  else if p.head? = some '/' then ConfinedAbs maxPath rootPath p
  else cwdLength cwd + (stripHere p).length < maxPath ∧ Fits maxPath rootPath (withCwd cwd (stripHere p)) ∧
    Below (lexical rootPath) (names cwd ++ names p)

variable {dir l : List Str}

private theorem prefix_followAll : dir <+: followAll dir l ↔ Below dir l := by
  rw [followAll_climb]
  conv_lhs => lhs; rw [← take_append_drop (dir.length - (climb l).1) dir]
  exact prefix_append_right_inj _

private theorem below_proper (h : ∀ n ∈ l, Proper n) : Below dir l := by
  rw [← prefix_followAll, followAll_proper h]
  exact prefix_append _ _

section

variable {maxPath : Nat} {fs : TaskFs maxPath}

/-- The root is put in front of a path: what comes out, if it fits. -/
theorem prependRoot_spec (hroot : Normal fs.rootPath) (hne : fs.rootPath ≠ ['/']) {t : Str}
    (ht : t.head? = some '/') :
    lexical fs.rootPath <+: lexical ((prependRoot maxPath fs.rootPath (collapse t)).getD []) ↔
      Fits maxPath fs.rootPath t ∧ Below (lexical fs.rootPath) (names t) := by
  have hlt := fs.root_lt
  have hnonempty : lexical fs.rootPath ≠ [] := by
    intro h
    have hs : absPath (lexical fs.rootPath) = fs.rootPath := hroot
    rw [h] at hs
    exact hne hs.symm
  have hfail : ¬lexical fs.rootPath <+: lexical [] := by
    intro h
    exact hnonempty (prefix_nil.1 h)
  rw [← names_collapse, ← prefix_followAll]
  unfold prependRoot Fits
  rw [if_neg (not_or.2 ⟨hroot.ne_nil, hne⟩), if_neg (hroot.getLast_ne hne)]
  by_cases hc : collapse t = ['/']
  · rw [if_pos hc, if_neg (by omega), hc]
    exact ⟨fun _ => ⟨.inl rfl, prefix_rfl⟩, fun _ => prefix_rfl⟩
  rw [if_neg hc]
  simp only [hc, false_or]
  by_cases hlong : fs.rootPath.length + (collapse t).length ≥ maxPath
  · rw [if_pos hlong]
    exact ⟨fun h => absurd h hfail, fun h => absurd h.1 (by omega)⟩
  rw [if_neg hlong]
  have hhead := collapse_head t
  rw [ht] at hhead
  obtain ⟨q, hq⟩ : ∃ q, collapse t = '/' :: q := by
    cases hct : collapse t with
    | nil =>
      rw [hct] at hhead
      cases hhead
    | cons c q =>
      rw [hct] at hhead
      cases hhead
      exact ⟨q, rfl⟩
  rw [getD_some, hq, lexical_append_slash, names_slash]
  refine ⟨fun h => ⟨by rw [← hq]; omega, h⟩, fun h => h.2⟩

private theorem withCwd_head {cwd : Str} (h : Normal cwd) (p : Str) : (withCwd cwd p).head? = some '/' := by
  have hhead := h.head
  unfold withCwd
  cases cwd with
  | nil => exact absurd rfl h.ne_nil
  | cons c cwd =>
    split_ifs
    · simpa using hhead
    · simpa using hhead

/-- The end of an absolute path, read off the path. -/
theorem confinedAbs_iff (rootPath : Str) {p : Str} (hp : p.head? = some '/') (hfit : p.length < maxPath) :
    Fits maxPath rootPath (stripDots p) ∧ Below (lexical rootPath) (names (stripDots p)) ↔
      ConfinedAbs maxPath rootPath p := by
  have hfront : ∀ front, names (front ++ ['/']) = names front := fun front => by
    rw [names_append_slash, names_nil, append_nil]
  -- no path ends both ways
  have hdot : ∀ {front s}, s ++ ['/', '.', '.'] ≠ front ++ ['/', '.'] := by
    intro front s hs
    have hrev := congrArg List.reverse hs
    simp at hrev
  have hsuffix : ∀ {front last : Str}, ['/', '.', '.'] <:+ front ++ '/' :: (last ++ ['/', '.', '.']) :=
    fun {front last} => ⟨front ++ '/' :: last, by simp⟩
  rcases stripDots_cases hp with ⟨front, last, hl, rfl, heq⟩ | ⟨rfl, heq⟩ | ⟨hdd, ⟨hd, heq⟩ | ⟨front, rfl, heq⟩⟩
  · rw [heq, hfront]
    constructor
    · refine fun h => ⟨hfit, fun front' last' heq' hl' => ?_, fun front' heq' => ?_, fun hno => absurd hsuffix hno⟩
      · obtain ⟨rfl, rfl⟩ := up_unique hl hl' heq'
        exact h
      · obtain ⟨s, hs⟩ : ['/', '.', '.'] <:+ front ++ '/' :: (last ++ ['/', '.', '.']) := hsuffix
        exact absurd (hs.trans heq') hdot
    · exact fun h => h.up front last rfl hl
  · rw [heq]
    constructor
    · refine fun _ => ⟨hfit, fun front last heq' _ => ?_, fun front heq' => ?_, fun hno => absurd suffix_rfl hno⟩
      · have hlen := congrArg List.length heq'
        simp at hlen
        omega
      · exact absurd heq' (hdot (s := []))
    · exact fun _ => ⟨.inl rfl, below_proper nofun⟩
  · rw [heq]
    constructor
    · refine fun h => ⟨hfit, fun front last heq' _ => ?_, fun front heq' => ?_, fun _ _ => h⟩
      · rw [heq'] at hdd
        exact absurd hsuffix hdd
      · exact absurd ⟨front, heq'.symm⟩ hd
    · exact fun h => h.plain hdd hd
  · rw [heq, hfront]
    constructor
    · refine fun h => ⟨hfit, fun front' last heq' _ => ?_, fun front' heq' => ?_,
        fun _ hno => absurd ⟨front, rfl⟩ hno⟩
      · rw [heq'] at hdd
        exact absurd hsuffix hdd
      · obtain rfl := append_cancel_right heq'
        exact h
    · exact fun h => h.dot front rfl

/-- The general part, for a path without `#!`. -/
theorem resolveText_confined (hroot : Normal fs.rootPath) (hne : fs.rootPath ≠ ['/']) (hcwd : Normal fs.cwd)
    (p : Str) : lexical fs.rootPath <+: lexical (((resolveText maxPath fs.cwd p).bind fun new =>
      prependRoot maxPath fs.rootPath (collapse new)).getD []) ↔ Confined maxPath fs.rootPath fs.cwd p := by
  have hfail : ¬lexical fs.rootPath <+: lexical [] := by
    intro h
    have hs : absPath (lexical fs.rootPath) = fs.rootPath := hroot
    rw [prefix_nil.1 h] at hs
    exact hne hs.symm
  have hproper : ∀ n ∈ lexical fs.cwd, Component n ∧ Proper n := fun n hn => lexical_component hn
  unfold Confined
  by_cases h1 : p = ['.']
  · have htext : resolveText maxPath fs.cwd p = some fs.cwd := by
      unfold resolveText
      rw [if_pos h1, sysGetcwd_normal hcwd]
    rw [htext, bind_some, prependRoot_spec hroot hne hcwd.head, if_pos h1, hcwd.names_eq]
    exact and_iff_left (below_proper fun n hn => (hproper n hn).2)
  rw [if_neg h1]
  by_cases h2 : p = ['.', '.']
  · have htext : resolveText maxPath fs.cwd p = some (absPath (lexical fs.cwd).dropLast) := by
      unfold resolveText
      rw [if_neg h1, if_pos h2, sysGetcwd_normal hcwd, parentOf_normal hcwd]
    have hsub : ∀ n ∈ (lexical fs.cwd).dropLast, Component n ∧ Proper n := fun n hn =>
      hproper n ((dropLast_sublist _).subset hn)
    rw [htext, bind_some, prependRoot_spec hroot hne (absPath_head _), if_pos h2,
      names_absPath fun n hn => (hsub n hn).1]
    exact and_iff_left (below_proper fun n hn => (hsub n hn).2)
  rw [if_neg h2]
  by_cases hp : p.head? = some '/'
  · unfold resolveText
    rw [if_neg h1, if_neg h2, if_pos hp, if_pos hp]
    by_cases hlong : p.length ≥ maxPath
    · rw [if_pos hlong]
      exact ⟨fun h => absurd h hfail, fun h => absurd h.fits (by omega)⟩
    · rw [if_neg hlong, bind_some, prependRoot_spec hroot hne (stripDots_head hp)]
      exact confinedAbs_iff _ hp (by omega)
  · rw [if_neg hp, resolveText_relative hcwd hp h1 h2]
    by_cases hlong : cwdLength fs.cwd + (stripHere p).length ≥ maxPath
    · rw [if_pos hlong]
      exact ⟨fun h => absurd h hfail, fun h => absurd h.1 (by omega)⟩
    · rw [if_neg hlong, bind_some, prependRoot_spec hroot hne (withCwd_head hcwd _), names_withCwd,
        ← prefix_followAll, ← prefix_followAll, followAll_append, followAll_append, followAll_stripHere]
      exact ⟨fun h => ⟨by omega, h⟩, fun h => h.2⟩

/-- The normal form of the result stays below the root exactly under the condition. -/
theorem resolve_confined (fs : TaskFs maxPath) (hroot : Normal fs.rootPath) (hne : fs.rootPath ≠ ['/'])
    (hcwd : Normal fs.cwd) (dup : Bool) (buf p : Str) :
    ((resolvePath dup fs buf p).1 = 0 → lexical fs.rootPath <+: lexical (resolvePath dup fs buf p).2) ↔
      p = [] ∨ (['#', '!'] <+: p ∧ dup = false) ∨
        Confined maxPath fs.rootPath fs.cwd (if ['#', '!'] <+: p then plainOld p else p) := by
  unfold resolvePath
  by_cases hp : p = []
  · rw [if_pos hp]
    exact ⟨fun _ => .inl hp, fun _ h => absurd h (show ¬(-1 : Int) = 0 by decide)⟩
  rw [if_neg hp, if_neg (fun h => hne h.2)]
  unfold resolveSlow
  by_cases hdup : ['#', '!'] <+: p ∧ ¬dup = true
  · rw [if_pos hdup]
    exact ⟨fun _ => .inr (.inl ⟨hdup.1, by simpa using hdup.2⟩), fun _ h => absurd h (by decide)⟩
  · rw [if_neg hdup]
    simp only [hp, false_or, forall_const]
    rw [resolveText_confined hroot hne hcwd]
    refine ⟨.inr, fun h => h.resolve_left fun hd => hdup ⟨hd.1, by simp [hd.2]⟩⟩

end

theorem jail_fits : (['/', 'j', 'a', 'i', 'l'] : Str).length < 4080 := by decide

theorem slash_fits : (['/'] : Str).length < 4080 := by decide

def jailed : TaskFs 4080 := ⟨['/', 'j', 'a', 'i', 'l'], ['/'], jail_fits, slash_fits⟩

theorem resolve_confined_plain :
    lexical jailed.rootPath <+: lexical (resolvePath true jailed [] ['/', 'e', 't', 'c']).2 := by
  have h := (resolve_confined jailed (by decide) (by decide) (by decide) true [] ['/', 'e', 't', 'c']).mpr
    (.inr (.inr ⟨by decide, ?_, ?_, fun _ _ => ⟨.inr (by decide), nil_prefix⟩⟩))
  · exact h rfl
  · intro front last heq
    have := congrArg List.reverse heq
    simp at this
  · intro front heq
    have := congrArg List.reverse heq
    simp at this

/-- The path `/../etc` leaves the root. -/
theorem up_leaves_root : resolvePath true jailed [] ['/', '.', '.', '/', 'e', 't', 'c'] =
      (0, ['/', 'j', 'a', 'i', 'l', '/', '.', '.', '/', 'e', 't', 'c']) ∧
    lexical ['/', 'j', 'a', 'i', 'l', '/', '.', '.', '/', 'e', 't', 'c'] = [['e', 't', 'c']] := by
  decide

end Mos.Fs
