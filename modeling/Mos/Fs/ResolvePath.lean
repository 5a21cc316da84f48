import Mos.Lib.Path

/-!
# `resolve_path`

`resolve_path` of `src/fs/impl/fs.c`, for a task with a `task_fs`.  Both paths of `task_fs` live in buffers of
`MAX_PATH` bytes, as the result does.  With the root `/` an absolute path is copied at once; only one that ends with a
dot goes on to the general part.  Where the result does not fit, the result is the empty string and the value returned
is 0.
-/

namespace Mos.Fs

open Lib

/-- The paths of `task_fs`. -/
structure TaskFs (maxPath : Nat) where
  rootPath : Str
  cwd : Str
  root_lt : rootPath.length < maxPath
  cwd_lt : cwd.length < maxPath

/-- `sys_getcwd`: the buffer is long enough. -/
def sysGetcwd (cwd : Str) : Str := if cwd = [] then ['/'] else cwd

/-- The first word after `#!`. -/
def plainOld (old : Str) : Str :=
  ((old.drop 2).dropWhile fun c => c = ' ' || c = '\t').takeWhile fun c => c ≠ ' ' && c ≠ '\t' && c ≠ '\n'

/-- The parent of the current directory: everything before the last slash. -/
def parentOf (new : Str) : Str :=
  if (new.rdropWhile (· ≠ '/')).length ≤ 1 then ['/'] else (new.rdropWhile (· ≠ '/')).dropLast

/-- The end of an absolute path is stripped: `/..` with the piece before it, or the dot of `/.`. -/
def stripDots (old : Str) : Str :=
  if ['/', '.', '.'] <:+ old then
    let new := old.take (old.length - 3)
    if '/' ∉ new then ['/'] else new.rdropWhile (· ≠ '/')
  else if ['/', '.'] <:+ old then old.dropLast
  else old

/-- Everything up to `done`; `none` where the source goes to `fail`. -/
def resolveText (maxPath : Nat) (cwd old : Str) : Option Str :=
  if old = ['.'] then some (sysGetcwd cwd)
  else if old = ['.', '.'] then some (parentOf (sysGetcwd cwd))
  else if old.head? = some '/' then
    if old.length ≥ maxPath then none else some (stripDots old)
  else
    let old := if ['.', '/'] <+: old then old.drop 2 else old
    let new := sysGetcwd cwd
    let new := if new ≠ [] ∧ new.getLast? ≠ some '/' then new ++ ['/'] else new
    if new.length + old.length ≥ maxPath then none else some (new ++ old)

def prependRoot (maxPath : Nat) (rootPath new : Str) : Option Str :=
  if rootPath = [] ∨ rootPath = ['/'] then some new
  else if new = ['/'] then
    if rootPath.length ≥ maxPath then none else some rootPath
  else
    let front := if rootPath.getLast? = some '/' then rootPath.dropLast else rootPath
    if front.length + new.length ≥ maxPath then none else some (front ++ new)

/-- From the check for `#!` on; `dup` tells if the string could be duplicated. -/
def resolveSlow {maxPath : Nat} (dup : Bool) (fs : TaskFs maxPath) (old : Str) : Int × Str :=
  if ['#', '!'] <+: old ∧ ¬dup then (-1, [])
  else
    let old := if ['#', '!'] <+: old then plainOld old else old
    (0, ((resolveText maxPath fs.cwd old).bind fun new => prependRoot maxPath fs.rootPath (collapse new)).getD [])

/-- `resolve_path`: the value returned and the string in `new`, which held `buf` before. -/
def resolvePath {maxPath : Nat} (dup : Bool) (fs : TaskFs maxPath) (buf old : Str) : Int × Str :=
  if old = [] then (-1, buf)
  else if old.head? = some '/' ∧ fs.rootPath = ['/'] then
    if (collapse old).length > maxPath - 1 then (0, [])
    else if (collapse old).length = 1 ∨ (collapse old).getLast? ≠ some '.' then (0, collapse old)
    else resolveSlow dup fs old
  else resolveSlow dup fs old

end Mos.Fs
