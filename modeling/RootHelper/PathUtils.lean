import RootHelper.Posix.Paths

/-!
The helper's own path functions. They look at slashes only.
-/

set_option autoImplicit false

namespace RootHelper
open Posix

/-- `find_last_of` the separator. -/
def lastSlash : Str → Option Nat
  | [] => none
  | c :: s =>
    match lastSlash s with
    | some i => some (i+1)
    | none => if c = slash then some 0 else none

def getParentDir (child : Str) : Str :=
  if child = [slash] then []
  else match lastSlash child with
    | none => []
    | some last => child.take last

def getFilenameFromFullPath (fullPath : Str) : Str :=
  match lastSlash fullPath with
  | none => fullPath
  | some last => fullPath.drop (last+1)

/-- The last byte of an empty directory string is not one to look at; what is found there with the
common libraries is not a slash. -/
def pathConcat (dir filename : Str) : Str :=
  if dir.getLast? = some slash then dir ++ filename else dir ++ slash :: filename

theorem lastSlash_eq_none {s : Str} : lastSlash s = none ↔ slash ∉ s := by
  induction s with
  | nil => simp [lastSlash]
  | cons c s ih =>
    unfold lastSlash
    cases hl : lastSlash s with
    | some i =>
      have hs : slash ∈ s := by simpa [hl] using ih
      simp [hs]
    | none =>
      have hs := ih.mp hl
      by_cases hc : c = slash <;> simp [hc,hs,eq_comm]

theorem lastSlash_eq_some {s : Str} {i : Nat} (h : lastSlash s = some i) :
    ∃ a b, s = a ++ slash :: b ∧ a.length = i ∧ slash ∉ b := by
  induction s generalizing i with
  | nil => simp [lastSlash] at h
  | cons c s ih =>
    unfold lastSlash at h
    cases hl : lastSlash s with
    | some j =>
      obtain ⟨a,b,rfl,ha,hb⟩ := ih hl
      simp only [hl,Option.some.injEq] at h
      exact ⟨c :: a,b,rfl,by simp [ha,h],hb⟩
    | none =>
      simp only [hl] at h
      split_ifs at h with hc
      subst hc
      exact ⟨[],s,rfl,by simpa using h,lastSlash_eq_none.mp hl⟩

theorem lastSlash_append {s t : Str} (ht : slash ∉ t) :
    lastSlash (s ++ slash :: t) = some s.length := by
  induction s with
  | nil => simp [lastSlash,lastSlash_eq_none.mpr ht]
  | cons c s ih => simp [lastSlash,ih]

theorem getParentDir_append {s t : Str} (ht : slash ∉ t) : getParentDir (s ++ slash :: t) = s := by
  unfold getParentDir
  rw [lastSlash_append ht]
  split_ifs with hroot
  · cases s with
    | nil => rfl
    | cons c s => simp at hroot
  · simp

theorem pathConcat_shape (dir filename : Str) :
    pathConcat dir filename = dir ++ filename ∧ endsWithSlash dir ∨
      pathConcat dir filename = dir ++ slash :: filename := by
  unfold pathConcat
  by_cases h : dir.getLast? = some slash
  · exact .inl ⟨by simp [h],h⟩
  · exact .inr (by simp [h])

theorem pathConcat_ne_nil (dir filename : Str) : pathConcat dir filename ≠ [] := by
  rcases pathConcat_shape dir filename with ⟨e,hend⟩ | e
  · have hdir : dir ≠ [] := by
      rintro rfl
      cases hend
    rw [e]
    exact List.append_ne_nil_of_left_ne_nil hdir _
  · rw [e]
    exact List.append_ne_nil_of_right_ne_nil _ (List.cons_ne_nil _ _)

theorem components_pathConcat (y : Str) {c : Name} (hc : ProperName c) :
    components (pathConcat y c) = components y ++ [c] := by
  rcases pathConcat_shape y c with ⟨e,hend⟩ | e
  · obtain ⟨y',rfl⟩ := List.getLast?_eq_some_iff.mp hend
    have happend := components_append_slash y' []
    rw [components_nil,List.append_nil] at happend
    rw [e,List.append_assoc,List.singleton_append,components_concat_name y' hc,happend]
  · rw [e,components_concat_name y hc]

theorem not_endsWithSlash_pathConcat (dir : Str) {c : Name} (hc : ProperName c) :
    ¬ endsWithSlash (pathConcat dir c) := by
  have hlast : (pathConcat dir c).getLast? = c.getLast? := by
    rcases pathConcat_shape dir c with ⟨e,_⟩ | e
    · rw [e,List.getLast?_append_of_ne_nil _ hc.1]
    · rw [e,List.getLast?_append_of_ne_nil _ (by simp),List.getLast?_cons_of_ne_nil hc.1]
  intro hend
  rw [endsWithSlash,hlast] at hend
  exact hc.2.1 (List.mem_of_getLast? hend)

theorem nulFree_pathConcat {dir filename : Str} (hd : NulFree dir) (hf : NulFree filename) :
    NulFree (pathConcat dir filename) := by
  rcases pathConcat_shape dir filename with ⟨e,_⟩ | e <;> rw [e]
  · simpa [NulFree] using ⟨hd,hf⟩
  · simpa [NulFree,slash] using ⟨hd,hf⟩

theorem absolute_pathConcat {dir filename : Str} (hd : absolute dir) :
    absolute (pathConcat dir filename) := by
  have hne : dir ≠ [] := by
    rintro rfl
    simp [absolute] at hd
  unfold absolute at *
  rcases pathConcat_shape dir filename with ⟨e,_⟩ | e <;>
    rw [e,List.head?_append_of_ne_nil _ hne,hd]

end RootHelper
