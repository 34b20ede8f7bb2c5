import Mathlib.Data.Int.Basic
import RootHelper.Posix.Containment

/-!
What a remote server exposes: where the directory comes from, and the test each handler makes on a
client's path. The test compares strings; what it keeps inside is said in components.
-/

set_option autoImplicit false

namespace RootHelper
open Posix

/-- The process globals: the acceptor socket, -1 where there is none, and the directory served. -/
structure HomePaths where
  rhss : Int
  xreExposedDirectory : Str

def isXreProcess (g : HomePaths) : Bool := g.rhss ≠ -1

/-- The last place at or before `pos` where `p` stands in `s`. -/
def rfindFrom (s p : Str) : Nat → Option Nat
  | 0 => if p.isPrefixOf s then some 0 else none
  | pos+1 => if p.isPrefixOf (s.drop (pos+1)) then some (pos+1) else rfindFrom s p pos

def rfind (s p : Str) (pos : Nat) : Option Nat :=
  if p.length ≤ s.length then rfindFrom s p (min (s.length - p.length) pos) else none

/-- `npos` is the largest `size_t`; as an `int` it is -1. -/
def rhss_checkAccess (g : HomePaths) (targetPath : Str) : Int :=
  if !isXreProcess g then 0
  else match rfind targetPath g.xreExposedDirectory 0 with
    | some i => i
    | none => -1

def homePrefix : Str := text ['-','-','h','o','m','e','P','a','t','h','=']
def announcePrefix : Str :=
  text ['-','-','a','n','n','o','u','n','c','e','d','P','a','t','h','=']
def exposePrefix : Str := text ['-','-','e','x','p','o','s','e','d','P','a','t','h','=']
def noAnnounceOption : Str := text ['-','-','n','o','A','n','n','o','u','n','c','e']

/-- The table of options; none of them starts another, so the order they are tried in does not
matter. -/
def mm : List (Nat × Str) := [(0,homePrefix),(1,announcePrefix),(2,exposePrefix)]

structure XREPaths where
  paths : List Str
  enableAnnounce : Bool

section
variable (canonicalize_path : Str → Str)

def optionPath (value : Str) : Str :=
  if value ≠ [] ∧ canonicalize_path value ≠ [] then canonicalize_path value else value

def getXREPath (x : XREPaths) (p : Str) : XREPaths :=
  if noAnnounceOption = p then { x with enableAnnounce := false }
  else match mm.find? fun kv => rfind p kv.2 0 == some 0 with
    | some kv =>
      { x with paths := x.paths.set kv.1 (optionPath canonicalize_path (p.drop kv.2.length)) }
    | none => x

def getXREPaths (argv : List Str) (enableAnnounce : Bool) : XREPaths :=
  argv.foldl (getXREPath canonicalize_path) ⟨List.replicate 3 [],enableAnnounce⟩

def exposedPath (argv : List Str) : Str :=
  ((getXREPaths canonicalize_path argv true).paths[2]?).getD []

def Given (argv : List Str) (x : Str) : Prop :=
  x = [] ∨ ∃ p ∈ argv, exposePrefix <+: p ∧
    x = optionPath canonicalize_path (p.drop exposePrefix.length)

end

theorem rfind_zero (s p : Str) : rfind s p 0 = if p <+: s then some 0 else none := by
  unfold rfind
  rw [Nat.min_zero]
  by_cases h : p <+: s
  · rw [if_pos h.length_le,if_pos h,rfindFrom,if_pos (List.isPrefixOf_iff_prefix.mpr h)]
  · have hnot : ¬ p.isPrefixOf s = true := fun hp => h (List.isPrefixOf_iff_prefix.mp hp)
    rw [if_neg h,rfindFrom,if_neg hnot]
    split_ifs <;> rfl

theorem rhss_checkAccess_eq_zero {g : HomePaths} (hxre : isXreProcess g) (t : Str) :
    rhss_checkAccess g t = 0 ↔ g.xreExposedDirectory <+: t := by
  unfold rhss_checkAccess
  rw [hxre,rfind_zero]
  by_cases h : g.xreExposedDirectory <+: t <;> simp [h]

section
variable {canonicalize_path : Str → Str}

theorem Given.append {argv : List Str} {x : Str} (h : Given canonicalize_path argv x)
    (p : Str) : Given canonicalize_path (argv ++ [p]) x := by
  rcases h with h | ⟨q,hq,h⟩
  · exact .inl h
  · exact .inr ⟨q,by simp [hq],h⟩

theorem getXREPath_exposed (x : XREPaths) (hlen : x.paths.length = 3) (p : Str) :
    (getXREPath canonicalize_path x p).paths.length = 3 ∧
      ((getXREPath canonicalize_path x p).paths[2]? = x.paths[2]? ∨
        exposePrefix <+: p ∧ (getXREPath canonicalize_path x p).paths[2]? =
          some (optionPath canonicalize_path (p.drop exposePrefix.length))) := by
  unfold getXREPath
  by_cases hno : noAnnounceOption = p
  · rw [if_pos hno]
    exact ⟨hlen,.inl rfl⟩
  · rw [if_neg hno]
    cases hfind : mm.find? fun kv => rfind p kv.2 0 == some 0 with
    | none => exact ⟨hlen,.inl rfl⟩
    | some kv =>
      refine ⟨by simp [hlen],?_⟩
      have hmem := List.mem_of_find?_eq_some hfind
      have hpre : kv.2 <+: p := by
        have h := List.find?_some hfind
        rw [rfind_zero] at h
        by_contra hnot
        simp [hnot] at h
      simp only [mm,List.mem_cons,List.not_mem_nil,or_false] at hmem
      rcases hmem with rfl | rfl | rfl
      · exact .inl (by simp)
      · exact .inl (by simp)
      · exact .inr ⟨hpre,by simp [hlen]⟩

theorem exposedPath_given (argv : List Str) :
    Given canonicalize_path argv (exposedPath canonicalize_path argv) := by
  have run : (getXREPaths canonicalize_path argv true).paths.length = 3 ∧
      Given canonicalize_path argv (exposedPath canonicalize_path argv) := by
    induction argv using List.reverseRecOn with
    | nil => exact ⟨rfl,.inl rfl⟩
    | append_singleton argv p ih =>
      obtain ⟨hlen,hgiven⟩ := ih
      have hstep := @getXREPath_exposed canonicalize_path _ hlen p
      have hrun : getXREPaths canonicalize_path (argv ++ [p]) true =
          getXREPath canonicalize_path (getXREPaths canonicalize_path argv true) p := by
        simp [getXREPaths]
      rw [exposedPath,hrun]
      refine ⟨hstep.1,?_⟩
      rcases hstep.2 with hsame | ⟨hpre,hset⟩
      · rw [hsame]
        exact hgiven.append p
      · rw [hset]
        exact .inr ⟨p,by simp,hpre,rfl⟩
  exact run.2

theorem exposedPath_canonical (hreal : ∀ x, x ≠ [] → Canonical (canonicalize_path x))
    (argv : List Str) : exposedPath canonicalize_path argv = [] ∨
      Canonical (exposedPath canonicalize_path argv) := by
  rcases @exposedPath_given canonicalize_path argv with h | ⟨p,_,_,h⟩
  · exact .inl h
  · rw [h,optionPath]
    by_cases hp : p.drop exposePrefix.length = []
    · exact .inl (by simp [hp])
    · have hcan := hreal _ hp
      have hne : canonicalize_path (p.drop exposePrefix.length) ≠ [] := by
        intro hnil
        have := hcan.absolute
        rw [hnil] at this
        simp [absolute] at this
      rw [if_pos ⟨hp,hne⟩]
      exact .inr hcan

end

def Within (cwd : Path) (d t : Str) : Prop := components d <+: resolve cwd t

instance (cwd : Path) (d t : Str) : Decidable (Within cwd d t) :=
  inferInstanceAs (Decidable (_ <+: _))

/-- What follows the directory starts with a slash or is empty, and none of its `..` is without a
name of its own to take back. -/
def GoesDown (r : Str) : Prop :=
  r.takeWhile (· ≠ slash) = [] ∧ climbs (components (r.dropWhile (· ≠ slash))) = 0

def ComesBack (d r : Str) : Prop :=
  let back := components (r.dropWhile (· ≠ slash))
  0 < climbs back ∧ (components d).drop ((components d).length - climbs back) <+: kept back

instance (r : Str) : Decidable (GoesDown r) := inferInstanceAs (Decidable (_ ∧ _))

instance (d r : Str) : Decidable (ComesBack d r) := inferInstanceAs (Decidable (_ ∧ _))

/-- Of the paths the server lets through, which are inside. -/
theorem granted_within_iff {g : HomePaths} (hxre : isXreProcess g)
    (hcan : Canonical g.xreExposedDirectory) {t : Str} (hok : rhss_checkAccess g t = 0)
    (cwd : Path) :
    Within cwd g.xreExposedDirectory t ↔
      g.xreExposedDirectory = [slash] ∨ GoesDown (t.drop g.xreExposedDirectory.length) ∨
        ComesBack g.xreExposedDirectory (t.drop g.xreExposedDirectory.length) := by
  obtain ⟨r,rfl⟩ := (rhss_checkAccess_eq_zero hxre t).mp hok
  rw [List.drop_left]
  by_cases hroot : g.xreExposedDirectory = [slash]
  · have hnil : components g.xreExposedDirectory = [] := by rw [hroot]; rfl
    have hin : components g.xreExposedDirectory <+: resolve cwd (g.xreExposedDirectory ++ r) := by
      rw [hnil]
      exact List.nil_prefix
    exact iff_of_true hin (.inl hroot)
  · obtain ⟨p,a,hd,hres⟩ := hcan.resolve_append hroot r cwd
    have hname : a = a ++ r.takeWhile (· ≠ slash) ↔ r.takeWhile (· ≠ slash) = [] :=
      List.self_eq_append_right
    rw [Within,hres,hd,prefix_normalize_concat_iff,hname,GoesDown,ComesBack,hd,and_comm]
    simp only [hroot,false_or]

/-- A server that exposes `/srv/a`. -/
def servingA : HomePaths := ⟨3,text ['/','s','r','v','/','a']⟩

/-- Out of the directory and back into it. -/
theorem granted_within_again :
    Within [] servingA.xreExposedDirectory
      (text ['/','s','r','v','/','a','/','.','.','/','a','/','b']) :=
  (granted_within_iff (by decide) ⟨by decide,by decide⟩ (by decide) []).mpr (.inr (.inr (by decide)))

/-- The path of a neighbour is let through. -/
theorem granted_neighbour : isXreProcess servingA ∧ Canonical servingA.xreExposedDirectory ∧
    rhss_checkAccess servingA (text ['/','s','r','v','/','a','b']) = 0 ∧
      ¬ Within [] servingA.xreExposedDirectory (text ['/','s','r','v','/','a','b']) := by
  refine ⟨by decide,⟨by decide,by decide⟩,by decide,by decide⟩

end RootHelper
