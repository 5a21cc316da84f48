import Mathlib.Data.List.DropRight

/-!
# Path strings

A string is the list of its characters, one byte each, without the final zero byte.  `names` are the components of a
path: the longest pieces without a slash, of which empty ones do not count.  `lexical` is the normal form of a path:
`.` is dropped and `..` takes the component before it away.  Seen from a directory, a list of components climbs some
levels up and then goes down (`climb`).
-/

namespace Mos.Lib

open List

abbrev Str := List Char

def names (s : Str) : List Str := (s.splitOn '/').filter (· ≠ [])

theorem names_nil : names [] = [] := rfl

theorem names_append_slash (x y : Str) : names (x ++ '/' :: y) = names x ++ names y := by
  unfold names splitOn
  rw [splitOnP_append_cons x y (by simp), filter_append]

theorem names_slash (s : Str) : names ('/' :: s) = names s := names_append_slash [] s

theorem names_single {c : Str} (h : '/' ∉ c) (hne : c ≠ []) : names c = [c] := by
  unfold names splitOn
  rw [splitOnP_eq_singleton]
  · simp [hne]
  · intro x hx
    simp only [beq_eq_false_iff_ne, ne_eq]
    rintro rfl
    exact h hx

variable {l : Str}

theorem names_slashes (h : ∀ c ∈ l, c = '/') (s : Str) : names (l ++ s) = names s := by
  induction l with
  | nil => rfl
  | cons c l ih =>
    obtain rfl := h c mem_cons_self
    rw [cons_append, names_slash, ih fun c hc => h c (mem_cons_of_mem _ hc)]

theorem names_append_slashes (h : ∀ c ∈ l, c = '/') (s : Str) : names (s ++ l) = names s := by
  cases l with
  | nil => rw [append_nil]
  | cons c l =>
    obtain rfl := h c mem_cons_self
    have htail := names_slashes (fun c hc => h c (mem_cons_of_mem _ hc)) []
    rw [append_nil, names_nil] at htail
    rw [names_append_slash, htail, append_nil]

/-- The part of a path before its last component, and this component. -/
def splitLast (path : Str) : Str × Str :=
  let body := (path.dropWhile (· = '/')).rdropWhile (· = '/')
  (path.takeWhile (· = '/') ++ body.rdropWhile (· ≠ '/'), body.rtakeWhile (· ≠ '/'))

theorem not_mem_splitLast (path : Str) : '/' ∉ (splitLast path).2 := by
  intro h
  simpa using mem_rtakeWhile_imp h

/-- Slashes in front and at the end apart, a path is its front part and its last component. -/
theorem splitLast_append (path : Str) :
    ∃ l, (∀ c ∈ l, c = '/') ∧ path = (splitLast path).1 ++ (splitLast path).2 ++ l := by
  refine ⟨(path.dropWhile (· = '/')).rtakeWhile (· = '/'), fun c hc => ?_, ?_⟩
  · simpa using mem_rtakeWhile_imp hc
  · unfold splitLast
    rw [append_assoc, append_assoc, ← append_assoc (rdropWhile _ _), rdropWhile_append_rtakeWhile,
      rdropWhile_append_rtakeWhile, takeWhile_append_dropWhile]

theorem eq_append_slash (hne : l ≠ []) (h : l.getLast hne = '/') : l = l.dropLast ++ ['/'] := by
  rw [← h, dropLast_append_getLast]

/-- What stands before the last component is empty or ends with a slash. -/
theorem splitLast_front (path : Str) : (splitLast path).1 = [] ∨ ∃ s, (splitLast path).1 = s ++ ['/'] := by
  unfold splitLast
  generalize (path.dropWhile (· = '/')).rdropWhile (· = '/') = body
  simp only
  by_cases hbody : body.rdropWhile (· ≠ '/') = []
  · rw [hbody, append_nil]
    by_cases hlead : path.takeWhile (· = '/') = []
    · exact .inl hlead
    · refine .inr ⟨_, eq_append_slash hlead ?_⟩
      simpa using mem_takeWhile_imp (getLast_mem hlead)
  · have hlast := rdropWhile_last_not _ _ hbody
    refine .inr ⟨path.takeWhile (· = '/') ++ (body.rdropWhile (· ≠ '/')).dropLast, ?_⟩
    rw [append_assoc, ← eq_append_slash hbody (by simpa using hlast)]

theorem names_splitLast {path : Str} (h : (splitLast path).2 ≠ []) :
    names path = names (splitLast path).1 ++ [(splitLast path).2] := by
  obtain ⟨l, hl, heq⟩ := splitLast_append path
  conv_lhs => rw [heq]
  rw [names_append_slashes hl]
  rcases splitLast_front path with h1 | ⟨s, h1⟩
  · rw [h1, nil_append, names_nil, nil_append, names_single (not_mem_splitLast path) h]
  · rw [h1, append_assoc, singleton_append, names_append_slash, names_append_slash, names_nil, append_nil,
      names_single (not_mem_splitLast path) h]

/-- Slashes that follow a slash are skipped; `prev` tells if one has just been copied. -/
def collapseFrom (prev : Bool) : Str → Str
  | [] => []
  | c :: s => if c = '/' ∧ prev = true then collapseFrom prev s else c :: collapseFrom (c = '/') s

def collapse (s : Str) : Str := collapseFrom false s

theorem names_cons {c : Char} (hc : c ≠ '/') (t : Str) : names (c :: t) = (c :: t.takeWhile (· ≠ '/')) ::
    if t.takeWhile (· ≠ '/') = [] then names t else (names t).tail := by
  have hword : ∀ {w : Str}, w = t.takeWhile (· ≠ '/') → '/' ∉ w ∧ '/' ∉ c :: w := by
    rintro w rfl
    have hw : '/' ∉ t.takeWhile (· ≠ '/') := fun h => by simpa using mem_takeWhile_imp h
    refine ⟨hw, fun h => ?_⟩
    rcases mem_cons.1 h with rfl | h
    · exact hc rfl
    · exact hw h
  have hsplit := (takeWhile_append_dropWhile (p := (· ≠ '/')) (l := t)).symm
  generalize hw : t.takeWhile (· ≠ '/') = w at hsplit
  obtain ⟨hw1, hw2⟩ := hword hw.symm
  cases hd : t.dropWhile (· ≠ '/') with
  | nil =>
    rw [hd, append_nil] at hsplit
    subst hsplit
    rw [names_single hw2 (by simp)]
    split_ifs with hnil
    · rw [hnil, names_nil]
    · rw [names_single hw1 hnil, tail_cons]
  | cons b r =>
    obtain rfl : b = '/' := by
      have hhead := head?_dropWhile_not (· ≠ '/') t
      rw [hd] at hhead
      simpa using hhead
    rw [hd] at hsplit
    subst hsplit
    rw [← cons_append, names_append_slash, names_append_slash, names_single hw2 (by simp)]
    split_ifs with hnil
    · rw [hnil, names_nil]
      rfl
    · rw [names_single hw1 hnil]
      rfl

theorem takeWhile_collapse (s : Str) : (collapseFrom false s).takeWhile (· ≠ '/') = s.takeWhile (· ≠ '/') := by
  induction s with
  | nil => rfl
  | cons c s ih =>
    by_cases hc : c = '/'
    · simp [collapseFrom, hc]
    · simp only [collapseFrom, hc, false_and, if_false, decide_false]
      rw [takeWhile_cons_of_pos (by simpa using hc), takeWhile_cons_of_pos (by simpa using hc), ih]

theorem names_collapseFrom (b : Bool) (s : Str) : names (collapseFrom b s) = names s := by
  induction s generalizing b with
  | nil => rfl
  | cons c s ih =>
    by_cases hc : c = '/'
    · subst hc
      simp only [collapseFrom, true_and, decide_true]
      split_ifs
      · rw [ih, names_slash]
      · rw [names_slash, names_slash, ih]
    · simp only [collapseFrom, hc, false_and, if_false, decide_false]
      rw [names_cons hc, names_cons hc, takeWhile_collapse, ih]

theorem names_collapse (s : Str) : names (collapse s) = names s := names_collapseFrom false s

theorem collapseFrom_length_le (b : Bool) (s : Str) : (collapseFrom b s).length ≤ s.length := by
  induction s generalizing b with
  | nil => exact le_rfl
  | cons c s ih =>
    simp only [collapseFrom, length_cons]
    split_ifs
    · exact Nat.le_succ_of_le (ih b)
    · exact Nat.succ_le_succ (ih _)

theorem collapse_length_le (s : Str) : (collapse s).length ≤ s.length := collapseFrom_length_le false s

theorem collapse_head (s : Str) : (collapse s).head? = s.head? := by
  cases s with
  | nil => rfl
  | cons c s => simp [collapse, collapseFrom]

theorem collapse_getLast (s : Str) : (collapse s).getLast? = s.getLast? := by
  have hcons : ∀ (s : Str) (c : Char), (c :: collapseFrom (c = '/') s).getLast? = (c :: s).getLast? := by
    intro s
    induction s with
    | nil => exact fun _ => rfl
    | cons d s ih =>
      intro c
      simp only [collapseFrom, decide_eq_true_eq]
      split_ifs with h
      · obtain ⟨rfl, rfl⟩ := h
        rw [ih, getLast?_cons_cons]
      · rw [getLast?_cons_cons, getLast?_cons_cons, ih]
  cases s with
  | nil => rfl
  | cons c s =>
    rw [← hcons]
    simp [collapse, collapseFrom]

/-! ### Normal forms -/

/-- One component, seen from the directory to which the components before it lead. -/
def follow (stack : List Str) (name : Str) : List Str :=
  if name = ['.'] then stack else if name = ['.', '.'] then stack.dropLast else stack ++ [name]

def followAll (stack : List Str) (l : List Str) : List Str := l.foldl follow stack

def lexical (s : Str) : List Str := followAll [] (names s)

/-- A component that goes down. -/
def Proper (name : Str) : Prop := name ≠ ['.'] ∧ name ≠ ['.', '.']

theorem followAll_append (stack l l' : List Str) : followAll stack (l ++ l') = followAll (followAll stack l) l' :=
  foldl_append

variable {name : Str} {l : List Str}

theorem follow_proper (h : Proper name) (stack : List Str) : follow stack name = stack ++ [name] := by
  unfold follow
  rw [if_neg h.1, if_neg h.2]

theorem followAll_proper (h : ∀ name ∈ l, Proper name) (stack : List Str) : followAll stack l = stack ++ l := by
  induction l generalizing stack with
  | nil => exact (append_nil _).symm
  | cons name l ih =>
    have hrest := ih (fun n hn => h n (mem_cons_of_mem _ hn)) (follow stack name)
    rw [follow_proper (h name mem_cons_self), append_assoc, singleton_append] at hrest
    rw [← hrest, ← follow_proper (h name mem_cons_self)]
    rfl

theorem lexical_append_slash (x y : Str) : lexical (x ++ '/' :: y) = followAll (lexical x) (names y) := by
  unfold lexical
  rw [names_append_slash, followAll_append]

theorem lexical_snoc_slash (x : Str) : lexical (x ++ ['/']) = lexical x := lexical_append_slash x []

theorem lexical_collapse (s : Str) : lexical (collapse s) = lexical s := by
  unfold lexical
  rw [names_collapse]

/-- A component as it stands in a path. -/
def Component (name : Str) : Prop := name ≠ [] ∧ '/' ∉ name

variable {s : Str}

theorem names_component (h : name ∈ names s) : Component name := by
  induction s with
  | nil => cases h
  | cons c t ih =>
    by_cases hc : c = '/'
    · rw [hc, names_slash] at h
      exact ih h
    rw [names_cons hc] at h
    rcases mem_cons.1 h with rfl | h
    · refine ⟨cons_ne_nil _ _, fun hm => ?_⟩
      rcases mem_cons.1 hm with rfl | hm
      · exact hc rfl
      · simpa using mem_takeWhile_imp hm
    · split_ifs at h
      · exact ih h
      · exact ih (mem_of_mem_tail h)

theorem followAll_mem {stack : List Str} (h : name ∈ followAll stack l) : name ∈ stack ∨ name ∈ l ∧ Proper name := by
  revert h
  refine foldlRecOn (motive := fun found => name ∈ found → _) l _ .inl fun found ih n hn h => ?_
  unfold follow at h
  split_ifs at h with h1 h2
  · exact ih h
  · exact ih ((dropLast_sublist found).subset h)
  · rcases mem_append.1 h with h | h
    · exact ih h
    · obtain rfl := mem_singleton.1 h
      exact .inr ⟨hn, h1, h2⟩

theorem lexical_component (h : name ∈ lexical s) : Component name ∧ Proper name := by
  rcases followAll_mem h with h | ⟨h, hp⟩
  · cases h
  · exact ⟨names_component h, hp⟩

/-- The absolute path with the given components. -/
def absPath (l : List Str) : Str := if l = [] then ['/'] else l.flatMap ('/' :: ·)

/-- An absolute path without `.`, `..` and slashes in a row or at its end. -/
def Normal (s : Str) : Prop := absPath (lexical s) = s

instance (s : Str) : Decidable (Normal s) := inferInstanceAs (Decidable (_ = _))

theorem flatMap_slash_ne_nil (h : l ≠ []) : l.flatMap ('/' :: ·) ≠ [] := by
  cases l with
  | nil => exact absurd rfl h
  | cons n l => simp

theorem absPath_head (l : List Str) : (absPath l).head? = some '/' := by
  unfold absPath
  split_ifs with h
  · rfl
  · cases l with
    | nil => exact absurd rfl h
    | cons n l => rfl

theorem Normal.head (h : Normal s) : s.head? = some '/' := by
  rw [← h]
  exact absPath_head _

theorem Normal.ne_nil (h : Normal s) : s ≠ [] := by
  rintro rfl
  exact absurd (Normal.head h) (by decide)

theorem absPath_snoc (l : List Str) (n : Str) : absPath (l ++ [n]) = l.flatMap ('/' :: ·) ++ '/' :: n := by
  simp [absPath]

theorem Normal.getLast_ne (h : Normal s) (hne : s ≠ ['/']) : s.getLast? ≠ some '/' := by
  intro hlast
  have hs : absPath (lexical s) = s := h
  rcases eq_nil_or_concat (lexical s) with hl | ⟨l, n, hl⟩
  · rw [hl] at hs
    exact hne hs.symm
  have hn : Component n := (lexical_component (by rw [hl]; simp)).1
  rw [hl, concat_eq_append, absPath_snoc] at hs
  rw [← hs, getLast?_append, getLast?_cons, getLast?_eq_some_getLast hn.1] at hlast
  have hmem := getLast_mem hn.1
  simp only [Option.getD_some, Option.some_or, Option.some.injEq] at hlast
  rw [hlast] at hmem
  exact hn.2 hmem

theorem names_flatMap (h : ∀ n ∈ l, Component n) : names (l.flatMap ('/' :: ·)) = l := by
  induction l with
  | nil => rfl
  | cons n l ih =>
    have hn := h n mem_cons_self
    have hrest := ih fun m hm => h m (mem_cons_of_mem _ hm)
    rw [flatMap_cons, cons_append, names_slash]
    cases l with
    | nil => rw [flatMap_nil, append_nil, names_single hn.2 hn.1]
    | cons m l =>
      rw [flatMap_cons, cons_append] at hrest ⊢
      rw [names_append_slash, names_single hn.2 hn.1, ← names_slash, hrest]
      rfl

theorem names_absPath (h : ∀ n ∈ l, Component n) : names (absPath l) = l := by
  unfold absPath
  split_ifs with hl
  · rw [hl]
    rfl
  · exact names_flatMap h

theorem lexical_absPath (h : ∀ n ∈ l, Component n ∧ Proper n) : lexical (absPath l) = l := by
  unfold lexical
  rw [names_absPath fun n hn => (h n hn).1, followAll_proper fun n hn => (h n hn).2, nil_append]

theorem Normal.names_eq (h : Normal s) : names s = lexical s := by
  conv_lhs => rw [← h]
  exact names_absPath fun n hn => (lexical_component hn).1

/-- How many levels a list of components climbs up, and where it goes down from there. -/
def climb (l : List Str) : Nat × List Str :=
  l.foldl (fun (k, rest) name =>
    if name = ['.'] then (k, rest)
    else if name = ['.', '.'] then (if rest = [] then (k + 1, []) else (k, rest.dropLast))
    else (k, rest ++ [name])) (0, [])

theorem climb_snoc (l : List Str) (name : Str) : climb (l ++ [name]) = if name = ['.'] then climb l
    else if name = ['.', '.'] then
      (if (climb l).2 = [] then ((climb l).1 + 1, []) else ((climb l).1, (climb l).2.dropLast))
    else ((climb l).1, (climb l).2 ++ [name]) := by
  unfold climb
  rw [foldl_append]
  rfl

theorem followAll_climb (stack l : List Str) :
    followAll stack l = stack.take (stack.length - (climb l).1) ++ (climb l).2 := by
  induction l using reverseRecOn with
  | nil => simp [followAll, climb]
  | append_singleton l name ih =>
    rw [followAll_append, ih, climb_snoc]
    simp only [followAll, foldl_cons, foldl_nil, follow]
    split_ifs with h1 h2 h3
    · rfl
    · rw [h3, append_nil, append_nil, dropLast_eq_take, take_take, length_take]
      congr 1
      omega
    · rw [dropLast_append_of_ne_nil h3]
    · rw [append_assoc]

end Mos.Lib
