import Mathlib.Algebra.Group.Nat.Defs
import RootHelper.Posix.Calls

/-!
What the calls that only look answer while a file system stays as it is: for each path string what
stands there, what a directory lists and what is read from a file. An answer may be missing for any
reason, also where permissions allow one call and not another. Paths have the length the system
allows, so a walk that adds a name at each step comes to its end.
-/

set_option autoImplicit false

namespace Posix

def PATH_MAX : Nat := 4096

/-- Anything but a directory or a link is looked at like a file. -/
inductive Kind where
  | file | dir | link
  deriving DecidableEq, Repr

/-- What `lstat` and `stat` tell. -/
structure Stat where
  kind : Kind
  mode : Nat
  uid : Nat
  gid : Nat
  size : UInt64
  atime : Int
  mtime : Int
  ctime : Int
  deriving DecidableEq, Repr

/-- What the reads from an open file give one after the other, up to its end or to one that fails. -/
structure Reading where
  pieces : List Str
  nonempty : ∀ s ∈ pieces, s ≠ []
  fails : Bool

def Reading.content (r : Reading) : Str := r.pieces.flatten

theorem onePiece_ne_nil (content : Str) : ∀ s ∈ [content].filter (· ≠ []), s ≠ [] :=
  fun _ hs => by simpa using (List.mem_filter.mp hs).2

structure View where
  lstat : Str → Option Stat
  stat : Str → Option Stat
  /-- Without the two dot names. -/
  opendir : Str → Option (List Name)
  openRead : Str → Option Reading
  /-- The name `getpwuid` knows. -/
  username : Nat → Option Str
  /-- What a call that gives no answer for a path leaves as the error number. -/
  errno : Str → Nat
  errno_pos : ∀ s, 0 < errno s
  errno_lt : ∀ s, errno s < 2^31
  short : ∀ s ns, opendir s = some ns → s.length < PATH_MAX

theorem errno_two_pos (_ : Str) : 0 < 2 := by decide

theorem errno_two_lt (_ : Str) : 2 < 2^31 := by decide

end Posix
