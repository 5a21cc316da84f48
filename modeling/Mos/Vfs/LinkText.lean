import Mos.Lib.Path

/-!
# The texts of links in an entry tree

`vfs_entry_link_text` of `src/fs/impl/entries.c` writes the path from the directory of a link to its target.  Two
walks to the root count its bytes, one `../` for each level of the directory and the names of the target; these are
then written backwards from the end.  The path of an entry has less than 256 bytes, so the `unsigned` sums of the code
do not wrap.
-/

namespace Mos.Vfs.Entry

open Lib List

/-- An entry: its name and those of its parents below the root, names that `vfs_entry_new_node` accepts. -/
abbrev Node := List {name : Str // Component name ∧ Proper name ∧ '\x00' ∉ name}

/-- The components of the path from the root. -/
def path (n : Node) : List Str := (n.map Subtype.val).reverse

/-- The bytes from the start of the buffer on. -/
abbrev Memory := Nat → Char

def memcpy (m : Memory) (position : Nat) (s : Str) : Memory :=
  fun i => if i < position then m i else s.getD (i - position) (m i)

def suffix : Node → Nat
  | [] => 0
  | part :: up => part.1.length + 1 + suffix up

def putLevels (m : Memory) (position : Nat) : Node → Memory
  | [] => m
  | _ :: up => putLevels (memcpy m position ['.', '.', '/']) (position + 3) up

/-- The loop over the parts of the target, which stand before `position`. -/
def putParts (m : Memory) (position : Nat) : Node → Memory
  | [] => m
  | part :: up =>
    let start := position - 1 - part.1.length
    putParts (memcpy (memcpy m (position - 1) ['/']) start part.1) start up

def enametoolong : Int := -36

/-- The result and the memory; `dir` is the parent of the link. -/
def vfsEntryLinkText (m : Memory) (dir target : Node) (capacity : Nat) : Int × Memory :=
  let position := 3 * dir.length + suffix target
  if position + 2 > capacity then (enametoolong, m)
  else
    let m := putParts (memcpy (putLevels m 0 dir) position ['\x00']) position target
    if position ≠ 0 then (position - 1, memcpy m (position - 1) ['\x00']) else (1, memcpy m 0 ['.', '\x00'])

variable {m : Memory} {s t : Str} {a b : Nat}

private theorem memcpy_append (h : b = a + s.length) : memcpy (memcpy m a s) b t = memcpy m a (s ++ t) := by
  funext i
  grind [memcpy]

private theorem memcpy_before (h : b = a + s.length) : memcpy (memcpy m b t) a s = memcpy m a (s ++ t) := by
  funext i
  grind [memcpy]

private theorem memcpy_last (h : b = s.length) (c d e : Char) :
    memcpy (memcpy m 0 (s ++ [c] ++ [d])) b [e] = memcpy m 0 (s ++ [e, d]) := by
  funext i
  grind [memcpy]

abbrev up (k : Nat) : List Str := replicate k ['.', '.']

def joined (l : List Str) : Str := l.flatMap (· ++ ['/'])

private theorem joined_levels (dir : Node) : (joined (up dir.length)).length = 3 * dir.length ∧
    ∀ a m, putLevels m a dir = memcpy m a (joined (up dir.length)) := by
  induction dir with
  | nil => exact ⟨rfl, fun a m => by funext i; simp [putLevels, joined, memcpy]⟩
  | cons part rest ih =>
    have hjoin : joined (up (rest.length + 1)) = ['.', '.', '/'] ++ joined (up rest.length) := rfl
    refine ⟨by simp [hjoin, ih.1]; omega, fun a m => ?_⟩
    rw [putLevels, ih.2, memcpy_append (by rfl), length_cons, hjoin]

theorem joined_path (n : Node) : (joined (path n)).length = suffix n ∧
    ∀ a m, putParts m (a + suffix n) n = memcpy m a (joined (path n)) := by
  induction n with
  | nil => exact ⟨rfl, fun a m => by funext i; simp [putParts, joined, path, memcpy]⟩
  | cons part rest ih =>
    have hjoin : joined (path (part :: rest)) = joined (path rest) ++ (part.1 ++ ['/']) := by simp [joined, path]
    have hsuffix : suffix (part :: rest) = part.1.length + 1 + suffix rest := rfl
    refine ⟨by simp [hjoin, ih.1]; omega, fun a m => ?_⟩
    have hstart : a + suffix (part :: rest) - 1 - part.1.length = a + suffix rest := by omega
    simp only [putParts, hstart]
    rw [memcpy_before (by omega), ih.2, hjoin, memcpy_before (by rw [ih.1])]

theorem names_joined {l : List Str} {name : Str} (h : ∀ n ∈ l ++ [name], Component n) :
    names (joined l ++ name) = l ++ [name] := by
  induction l with
  | nil => exact names_single (h name mem_cons_self).2 (h name mem_cons_self).1
  | cons n l ih =>
    have hn := h n mem_cons_self
    have hcons : joined (n :: l) ++ name = n ++ '/' :: (joined l ++ name) := by simp [joined]
    rw [hcons, names_append_slash, names_single hn.2 hn.1, ih fun x hx => h x (mem_cons_of_mem _ hx)]
    rfl

theorem followAll_up (l : List Str) : followAll l (up l.length) = [] := by
  induction l using reverseRecOn with
  | nil => rfl
  | append_singleton l name ih =>
    have hup : follow (l ++ [name]) ['.', '.'] = l := by simp [follow]
    rw [length_append, length_singleton, up, replicate_succ]
    simpa [followAll, hup] using ih

/-- What is written is the path from the directory of the link to the target, or nothing. -/
theorem link_text_names (m : Memory) (dir target : Node) (capacity : Nat) :
    if 3 * dir.length + suffix target + 2 > capacity then vfsEntryLinkText m dir target capacity = (enametoolong, m)
    else ∃ s t, vfsEntryLinkText m dir target capacity = ((s.length : Int), memcpy m 0 (s ++ '\x00' :: t)) ∧
      (s ++ '\x00' :: t).length ≤ capacity ∧ '\x00' ∉ s ∧ followAll (path dir) (names s) = path target := by
  have htarget : ∀ name ∈ path target, Component name ∧ Proper name ∧ '\x00' ∉ name := by
    intro name h
    obtain ⟨part, -, rfl⟩ := mem_map.1 (mem_reverse.1 h)
    exact part.2
  obtain ⟨hlen1, hput⟩ := joined_path target
  obtain ⟨hlen2, hlevels⟩ := joined_levels dir
  -- the components of the text lead up to the root and down to the target
  obtain ⟨route, hroute⟩ : ∃ l, l = up dir.length ++ path target := ⟨_, rfl⟩
  have hfollow : followAll (path dir) route = path target := by
    have hdir : dir.length = (path dir).length := by simp [path]
    rw [hroute, followAll_append, hdir, followAll_up, followAll_proper fun n h => (htarget n h).2.1, nil_append]
  have hcomp : ∀ name ∈ route, Component name ∧ '\x00' ∉ name := by
    intro name h
    rcases mem_append.1 (hroute ▸ h) with h | h
    · rw [eq_of_mem_replicate h]
      exact ⟨⟨by decide, by decide⟩, by decide⟩
    · exact ⟨(htarget name h).1, (htarget name h).2.2⟩
  have hjoin : joined route = joined (up dir.length) ++ joined (path target) :=
    hroute ▸ flatMap_append
  have hlen : (joined route).length = 3 * dir.length + suffix target := by rw [hjoin, length_append, hlen1, hlen2]
  unfold vfsEntryLinkText
  by_cases hcap : 3 * dir.length + suffix target + 2 > capacity
  · simp [hcap]
  simp only [if_neg hcap]
  rw [hlevels, hput, memcpy_before (s := joined _) (by omega), memcpy_append (s := joined _) (by omega),
    ← append_assoc, ← hjoin, ← hlen]
  rcases eq_nil_or_concat route with rfl | ⟨l, name, rfl⟩
  · -- the target is the root and the link stands there
    have hover : memcpy (memcpy m 0 ['\x00']) 0 ['.', '\x00'] = memcpy m 0 ['.', '\x00'] := by
      funext i
      grind [memcpy]
    exact ⟨['.'], [], Prod.ext rfl hover, by simp; omega, by decide, hfollow⟩
  rw [concat_eq_append] at *
  have hsplit : joined (l ++ [name]) = joined l ++ name ++ ['/'] := by simp [joined]
  rw [hsplit] at hlen ⊢
  refine ⟨joined l ++ name, ['\x00'], ?_, ?_, ?_, ?_⟩
  · rw [if_pos (by simp), memcpy_last (by simp)]
    simp
    omega
  · simp at hlen ⊢
    omega
  · simp [joined]
    grind
  · rw [names_joined fun n hn => (hcomp n hn).1]
    exact hfollow

end Mos.Vfs.Entry
