import Mos.Fs.ResolvePath

/-!
# What `resolve_path` returns under the root `/`

With the root `/` the result should have the normal form of the path asked for.  It has, if everything fits into the
buffers and the path is not an absolute one that ends with `/..` after an empty piece, `.` or `..`: there the source
takes the piece away that stands before `/..`, whatever it is.
-/

namespace Mos.Fs

open Lib List

variable {last s : Str} {α : Type*} {l : List α}

private theorem cut_last_slash (front : Str) (h : '/' ∉ last) :
    (front ++ '/' :: last).rdropWhile (· ≠ '/') = front ++ ['/'] := by
  induction last using reverseRecOn with
  | nil => exact rdropWhile_concat_neg _ _ _ (by simp)
  | append_singleton last c ih =>
    have hc : c ≠ '/' := by
      rintro rfl
      exact h (mem_append_right _ mem_cons_self)
    rw [← cons_append, ← append_assoc, rdropWhile_concat_pos _ _ _ (by simpa using hc)]
    exact ih fun hm => h (mem_append_left _ hm)

private theorem split_last_slash (h : '/' ∈ s) : ∃ front last, s = front ++ '/' :: last ∧ '/' ∉ last := by
  obtain ⟨last, front, hs, hl⟩ := eq_append_cons_of_mem (mem_reverse.2 h)
  refine ⟨front.reverse, last.reverse, ?_, by simpa using hl⟩
  rw [← reverse_reverse s, hs]
  simp

private theorem stripDots_up (front : Str) (h : '/' ∉ last) :
    stripDots (front ++ '/' :: (last ++ ['/', '.', '.'])) = front ++ ['/'] := by
  have hassoc : front ++ '/' :: (last ++ ['/', '.', '.']) = (front ++ '/' :: last) ++ ['/', '.', '.'] := by simp
  unfold stripDots
  rw [hassoc, if_pos (suffix_append _ _)]
  have htake : ((front ++ '/' :: last) ++ ['/', '.', '.']).take
    (((front ++ '/' :: last) ++ ['/', '.', '.']).length - 3) = front ++ '/' :: last := by
    rw [length_append, show ['/', '.', '.'].length = 3 from rfl, Nat.add_sub_cancel]
    exact take_left
  simp only [htake]
  rw [if_neg (by simp), cut_last_slash front h]

private theorem lexical_up (front : Str) (h : '/' ∉ last) : lexical (front ++ '/' :: (last ++ ['/', '.', '.'])) =
      (if last = [] then lexical front else follow (lexical front) last).dropLast := by
  rw [lexical_append_slash, names_append_slash, followAll_append]
  have hdots : ∀ stack, followAll stack (names ['.', '.']) = stack.dropLast := fun _ => rfl
  rw [hdots]
  split_ifs with hnil
  · rw [hnil]
    rfl
  · rw [names_single h hnil]
    rfl

private theorem dropLast_eq_iff {l' : List α} (hl : l'.length ≤ l.length) : l'.dropLast = l ↔ l = [] := by
  constructor
  · intro h
    have := congrArg length h
    rw [length_dropLast] at this
    exact eq_nil_of_length_eq_zero (by omega)
  · rintro rfl
    rw [eq_nil_of_length_eq_zero (Nat.le_zero.1 hl)]
    rfl

/-- Where the piece before a final `/..` does not go down, there is nothing above it. -/
def UpOk (p : Str) : Prop := ∀ front last, p = front ++ '/' :: (last ++ ['/', '.', '.']) → '/' ∉ last →
  (last ≠ [] ∧ Proper last) ∨ lexical front = []

private theorem up_iff (front : Str) (h : '/' ∉ last) :
    lexical front = lexical (front ++ '/' :: (last ++ ['/', '.', '.'])) ↔ (last ≠ [] ∧ Proper last) ∨
    lexical front = [] := by
  rw [lexical_up front h]
  by_cases hnil : last = []
  · rw [if_pos hnil, eq_comm, dropLast_eq_iff le_rfl]
    simp [hnil]
  rw [if_neg hnil]
  by_cases h1 : last = ['.']
  · rw [show follow (lexical front) last = lexical front by simp [follow, h1], eq_comm, dropLast_eq_iff le_rfl]
    simp [Proper, h1]
  by_cases h2 : last = ['.', '.']
  · rw [show follow (lexical front) last = (lexical front).dropLast by simp [follow, h2], eq_comm,
      dropLast_eq_iff (by simp)]
    simp [Proper, h2]
  · rw [follow_proper ⟨h1, h2⟩, dropLast_concat]
    simp [Proper, hnil, h1, h2]

theorem up_unique {front front' last' : Str} (h : '/' ∉ last) (h' : '/' ∉ last')
    (heq : front ++ '/' :: (last ++ ['/', '.', '.']) = front' ++ '/' :: (last' ++ ['/', '.', '.'])) :
    front = front' ∧ last = last' := by
  have hfront := stripDots_up front h
  rw [heq, stripDots_up front' h'] at hfront
  obtain rfl := append_cancel_right hfront
  have hrest := append_cancel_left heq
  simpa using hrest

variable {p : Str}

section

variable (hp : p.head? = some '/')

include hp

theorem stripDots_cases :
    (∃ front last, '/' ∉ last ∧ p = front ++ '/' :: (last ++ ['/', '.', '.']) ∧ stripDots p = front ++ ['/']) ∨
      (p = ['/', '.', '.'] ∧ stripDots p = ['/']) ∨ (¬['/', '.', '.'] <:+ p ∧ (¬['/', '.'] <:+ p ∧ stripDots p = p ∨
        ∃ s, p = s ++ ['/', '.'] ∧ stripDots p = s ++ ['/'])) := by
  by_cases hdd : ['/', '.', '.'] <:+ p
  · obtain ⟨s, rfl⟩ := hdd
    by_cases hs : '/' ∈ s
    · obtain ⟨front, last, rfl, hl⟩ := split_last_slash hs
      have hassoc : (front ++ '/' :: last) ++ ['/', '.', '.'] = front ++ '/' :: (last ++ ['/', '.', '.']) := by simp
      rw [hassoc]
      exact .inl ⟨front, last, hl, rfl, stripDots_up front hl⟩
    obtain rfl : s = [] := by
      cases s with
      | nil => rfl
      | cons c s =>
        obtain rfl : c = '/' := by simpa using hp
        exact absurd mem_cons_self hs
    exact .inr (.inl ⟨rfl, rfl⟩)
  · refine .inr (.inr ⟨hdd, ?_⟩)
    unfold stripDots
    rw [if_neg hdd]
    split_ifs with hdot
    · obtain ⟨s, rfl⟩ := hdot
      exact .inr ⟨s, rfl, by simp⟩
    · exact .inl ⟨hdot, rfl⟩

theorem stripDots_head : (stripDots p).head? = some '/' := by
  rcases stripDots_cases hp with ⟨front, last, -, rfl, heq⟩ | ⟨-, heq⟩ | ⟨-, ⟨-, heq⟩ | ⟨s, rfl, heq⟩⟩
  · rw [heq]
    cases front with
    | nil => rfl
    | cons c front => simpa using hp
  · rw [heq]
    rfl
  · rw [heq]
    exact hp
  · rw [heq]
    cases s with
    | nil => rfl
    | cons c s => simpa using hp

private theorem stripDots_length_le : (stripDots p).length ≤ p.length := by
  rcases stripDots_cases hp with ⟨front, last, -, rfl, heq⟩ | ⟨rfl, heq⟩ | ⟨-, ⟨-, heq⟩ | ⟨s, rfl, heq⟩⟩
  · rw [heq, length_append, length_append, length_cons]
    exact Nat.add_le_add_left (Nat.succ_le_succ (Nat.zero_le _)) _
  · rw [heq]
    decide
  · rw [heq]
  · rw [heq]
    simp

private theorem stripDots_lexical : lexical (stripDots p) = lexical p ↔ UpOk p := by
  have hvoid : ¬['/', '.', '.'] <:+ p → UpOk p := by
    intro hdd front last heq _
    refine absurd ?_ hdd
    rw [heq]
    exact ⟨front ++ '/' :: last, by simp⟩
  rcases stripDots_cases hp with ⟨front, last, hl, rfl, heq⟩ | ⟨rfl, heq⟩ | ⟨hdd, ⟨-, heq⟩ | ⟨s, rfl, heq⟩⟩
  · rw [heq, lexical_snoc_slash, up_iff front hl]
    constructor
    · intro h front' last' heq' hl'
      obtain ⟨rfl, rfl⟩ := up_unique hl hl' heq'
      exact h
    · exact fun h => h front last rfl hl
  · refine ⟨fun _ front last heq' _ => ?_, fun _ => rfl⟩
    have hlen := congrArg length heq'
    simp at hlen
    omega
  · rw [heq]
    exact ⟨fun _ => hvoid hdd, fun _ => rfl⟩
  · rw [heq, lexical_snoc_slash, lexical_append_slash]
    exact ⟨fun _ => hvoid hdd, fun _ => rfl⟩

end

private theorem parentOf_absPath {l : List Str} (h : ∀ n ∈ l, Component n) :
    parentOf (absPath l) = absPath l.dropLast := by
  induction l using reverseRecOn with
  | nil => rfl
  | append_singleton l n _ =>
    have hn : '/' ∉ n := (h n (by simp)).2
    unfold parentOf
    rw [absPath_snoc, cut_last_slash _ hn, dropLast_concat, dropLast_concat, length_append]
    unfold absPath
    by_cases hl : l = []
    · rw [hl]
      rfl
    · have hpos := length_pos_iff.2 (flatMap_slash_ne_nil hl)
      rw [if_neg hl, if_neg (by rw [length_singleton]; omega)]

theorem parentOf_normal (h : Normal s) : parentOf s = absPath (lexical s).dropLast := by
  conv_lhs => rw [← h]
  exact parentOf_absPath fun n hn => (lexical_component hn).1

private theorem parentOf_length_le (h : s ≠ []) : (parentOf s).length ≤ s.length := by
  have hpos := length_pos_iff.2 h
  unfold parentOf
  split_ifs
  · exact hpos
  · have := ( rdropWhile_prefix (· ≠ '/') s).length_le
    rw [length_dropLast]
    omega

/-! ### The result -/

def asked (cwd p : Str) : Str := if p.head? = some '/' then p else cwd ++ '/' :: p

/-- An error, or a string in the buffer that starts at the root and has the normal form asked for. -/
def Resolved (maxPath : Nat) (cwd p : Str) (r : Int × Str) : Prop :=
  r.1 ≠ 0 ∨ (r.2.length < maxPath ∧ r.2.head? = some '/' ∧ lexical r.2 = lexical (asked cwd p))

/-- A relative path without one `./` in front. -/
def stripHere (p : Str) : Str := if ['.', '/'] <+: p then p.drop 2 else p

/-- The length of the current directory with a slash at its end. -/
def cwdLength (cwd : Str) : Nat := if cwd.getLast? = some '/' then cwd.length else cwd.length + 1

/-- Everything fits, and a final `/..` stands after a piece that goes down or at the root. -/
def Exact (maxPath : Nat) (cwd p : Str) : Prop :=
  if p.head? = some '/' then
    (collapse p).length < maxPath ∧ (p.getLast? = some '.' → p.length < maxPath ∧ UpOk p)
  else p = ['.'] ∨ p = ['.', '.'] ∨ cwdLength cwd + (stripHere p).length < maxPath

variable {cwd : Str}

section

variable {maxPath : Nat} {fs : TaskFs maxPath} {dup : Bool} {buf p : Str}

theorem resolved_collapse {t : Str} : Resolved maxPath cwd p (0, collapse t) ↔
    (collapse t).length < maxPath ∧ t.head? = some '/' ∧ lexical t = lexical (asked cwd p) := by
  unfold Resolved
  rw [collapse_head, lexical_collapse]
  simp

theorem not_resolved_nil : ¬Resolved maxPath cwd p (0, []) := by
  unfold Resolved
  simp

theorem resolveSlow_root (hroot : fs.rootPath = ['/']) (hsb : ¬['#', '!'] <+: p) :
    resolveSlow dup fs p = (0, ((resolveText maxPath fs.cwd p).map collapse).getD []) := by
  unfold resolveSlow
  rw [if_neg (fun h => hsb h.1)]
  simp only [if_neg hsb, hroot, prependRoot, or_true, if_true]
  cases resolveText maxPath fs.cwd p with
  | none => rfl
  | some t => rfl

theorem exact_absolute (hroot : fs.rootPath = ['/']) (hp : p.head? = some '/') :
    Resolved maxPath fs.cwd p (resolvePath dup fs buf p) ↔ Exact maxPath fs.cwd p := by
  have hne : p ≠ [] := by
    rintro rfl
    cases hp
  have hsb : ¬['#', '!'] <+: p := by
    rintro ⟨s, rfl⟩
    cases hp
  have hasked : asked fs.cwd p = p := if_pos hp
  unfold resolvePath Exact
  rw [if_neg hne, if_pos ⟨hp, hroot⟩, if_pos hp]
  by_cases hlong : (collapse p).length > maxPath - 1
  · rw [if_pos hlong]
    exact ⟨fun h => absurd h not_resolved_nil, fun h => by omega⟩
  have hmax := fs.root_lt
  have hfit : (collapse p).length < maxPath := by omega
  rw [if_neg hlong]
  by_cases hdot : (collapse p).length = 1 ∨ (collapse p).getLast? ≠ some '.'
  · -- the path is copied
    rw [if_pos hdot, resolved_collapse, hasked]
    refine ⟨fun _ => ⟨hfit, fun hlast => ?_⟩, fun _ => ⟨hfit, hp, rfl⟩⟩
    rw [← collapse_getLast] at hlast
    rcases hdot with hone | hdot
    · obtain ⟨c, hc⟩ := length_eq_one_iff.1 hone
      have hhead := collapse_head p
      rw [hc, hp] at hhead
      rw [hc] at hlast
      cases hhead
      cases hlast
    · exact absurd hlast hdot
  · have hlast : p.getLast? = some '.' := by
      rw [← collapse_getLast]
      exact not_not.1 (not_or.1 hdot).2
    have h1 : p ≠ ['.'] := by
      rintro rfl
      cases hp
    have h2 : p ≠ ['.', '.'] := by
      rintro rfl
      cases hp
    rw [if_neg hdot, resolveSlow_root hroot hsb]
    unfold resolveText
    rw [if_neg h1, if_neg h2, if_pos hp]
    by_cases hraw : p.length ≥ maxPath
    · rw [if_pos hraw]
      exact ⟨fun h => absurd h not_resolved_nil, fun h => absurd (h.2 hlast).1 (by omega)⟩
    rw [if_neg hraw]
    simp only [Option.map_some, Option.getD_some]
    have hlen := stripDots_length_le hp
    have hcol := collapse_length_le (stripDots p)
    rw [resolved_collapse, hasked, stripDots_lexical hp]
    constructor
    · exact fun h => ⟨hfit, fun _ => ⟨by omega, h.2.2⟩⟩
    · exact fun h => ⟨by omega, stripDots_head hp, (h.2 hlast).2⟩

/-- The current directory in front of a relative path. -/
def withCwd (cwd p : Str) : Str := (if cwd.getLast? = some '/' then cwd else cwd ++ ['/']) ++ p

theorem withCwd_length (cwd p : Str) : (withCwd cwd p).length = cwdLength cwd + p.length := by
  unfold withCwd cwdLength
  split_ifs
  · rw [length_append]
  · rw [length_append, length_append, length_singleton]

theorem names_withCwd (cwd p : Str) : names (withCwd cwd p) = names cwd ++ names p := by
  unfold withCwd
  split_ifs with h
  · obtain ⟨front, rfl⟩ := getLast?_eq_some_iff.1 h
    rw [append_assoc, singleton_append, names_append_slash, names_append_slash, names_nil, append_nil]
  · rw [append_assoc, singleton_append, names_append_slash]

theorem withCwd_lexical (cwd p : Str) : lexical (withCwd cwd p) = followAll (lexical cwd) (names p) := by
  unfold lexical
  rw [names_withCwd, followAll_append]

theorem followAll_stripHere (stack : List Str) (p : Str) :
    followAll stack (names (stripHere p)) = followAll stack (names p) := by
  unfold stripHere
  split_ifs with h
  · obtain ⟨s, rfl⟩ := h
    have hnames : names (['.', '/'] ++ s) = [['.']] ++ names s := names_append_slash ['.'] s
    rw [hnames]
    rfl
  · rfl

theorem sysGetcwd_normal (h : Normal cwd) : sysGetcwd cwd = cwd := if_neg h.ne_nil

theorem resolveText_relative (hcwd : Normal cwd) (hp : p.head? ≠ some '/') (h1 : p ≠ ['.'])
    (h2 : p ≠ ['.', '.']) : resolveText maxPath cwd p =
      if cwdLength cwd + (stripHere p).length ≥ maxPath then none else some (withCwd cwd (stripHere p)) := by
  unfold resolveText
  rw [if_neg h1, if_neg h2, if_neg hp, sysGetcwd_normal hcwd, ← withCwd_length]
  have hfront : (if cwd ≠ [] ∧ cwd.getLast? ≠ some '/' then cwd ++ ['/'] else cwd) =
      if cwd.getLast? = some '/' then cwd else cwd ++ ['/'] := by
    by_cases hlast : cwd.getLast? = some '/'
    · rw [if_pos hlast, if_neg (fun h => h.2 hlast)]
    · rw [if_neg hlast, if_pos ⟨hcwd.ne_nil, hlast⟩]
  simp only [hfront]
  unfold withCwd stripHere
  rw [length_append]

theorem exact_relative (hroot : fs.rootPath = ['/']) (hcwd : Normal fs.cwd) (hne : p ≠ []) (hsb : ¬['#', '!'] <+: p)
    (hp : p.head? ≠ some '/') : Resolved maxPath fs.cwd p (resolvePath dup fs buf p) ↔ Exact maxPath fs.cwd p := by
  have hasked : lexical (asked fs.cwd p) = followAll (lexical fs.cwd) (names p) := by
    unfold asked
    rw [if_neg hp, lexical_append_slash]
  have hlen := fs.cwd_lt
  unfold resolvePath Exact
  rw [if_neg hne, if_neg (fun h => hp h.1), if_neg hp, resolveSlow_root hroot hsb]
  by_cases h1 : p = ['.']
  · refine ⟨fun _ => .inl h1, fun _ => ?_⟩
    unfold resolveText
    rw [if_pos h1, sysGetcwd_normal hcwd]
    have := collapse_length_le fs.cwd
    refine resolved_collapse.2 ⟨by omega, hcwd.head, ?_⟩
    rw [hasked, h1]
    rfl
  by_cases h2 : p = ['.', '.']
  · refine ⟨fun _ => .inr (.inl h2), fun _ => ?_⟩
    unfold resolveText
    rw [if_neg h1, if_pos h2, sysGetcwd_normal hcwd]
    have hle := parentOf_length_le hcwd.ne_nil
    have := collapse_length_le (parentOf fs.cwd)
    refine resolved_collapse.2 ⟨by omega, ?_, ?_⟩
    · rw [parentOf_normal hcwd]
      exact absPath_head _
    · rw [hasked, h2, parentOf_normal hcwd, lexical_absPath]
      · rfl
      · exact fun n hn => lexical_component ((dropLast_sublist _).subset hn)
  rw [resolveText_relative hcwd hp h1 h2]
  by_cases hlong : cwdLength fs.cwd + (stripHere p).length ≥ maxPath
  · rw [if_pos hlong]
    refine ⟨fun h => absurd h not_resolved_nil, ?_⟩
    rintro (h | h | h)
    · exact absurd h h1
    · exact absurd h h2
    · omega
  rw [if_neg hlong]
  simp only [Option.map_some, Option.getD_some]
  refine ⟨fun _ => .inr (.inr (by omega)), fun _ => resolved_collapse.2 ⟨?_, ?_, ?_⟩⟩
  · have := collapse_length_le (withCwd fs.cwd (stripHere p))
    rw [withCwd_length] at this
    omega
  · have hhead := hcwd.head
    unfold withCwd
    cases hc : fs.cwd with
    | nil => exact absurd hc hcwd.ne_nil
    | cons c cwd =>
      rw [hc] at hhead
      split_ifs
      · simpa using hhead
      · simpa using hhead
  · rw [hasked, withCwd_lexical, followAll_stripHere]

/-- With the root `/` the result is right exactly under the condition. -/
theorem resolve_exact (fs : TaskFs maxPath) (hroot : fs.rootPath = ['/']) (hcwd : Normal fs.cwd) (dup : Bool)
    (buf : Str) {p : Str} (hne : p ≠ []) (hsb : ¬['#', '!'] <+: p) :
    Resolved maxPath fs.cwd p (resolvePath dup fs buf p) ↔ Exact maxPath fs.cwd p := by
  by_cases hp : p.head? = some '/'
  · exact exact_absolute hroot hp
  · exact exact_relative hroot hcwd hne hsb hp

end

def rootTask : TaskFs 4080 := ⟨['/'], ['/'], by decide, by decide⟩

theorem resolve_exact_relative :
    Resolved 4080 ['/'] ['a', '/', '.', '.'] (resolvePath true rootTask [] ['a', '/', '.', '.']) :=
  (resolve_exact rootTask rfl (by decide) true [] (by decide) (by decide)).mpr (.inr (.inr (by decide)))

/-- The path `/a/./..` is resolved to `/a/`. -/
theorem dot_before_up : resolvePath true rootTask [] ['/', 'a', '/', '.', '/', '.', '.'] = (0, ['/', 'a', '/']) ∧
    lexical ['/', 'a', '/'] = [['a']] ∧ lexical ['/', 'a', '/', '.', '/', '.', '.'] = [] := by
  decide

end Mos.Fs
