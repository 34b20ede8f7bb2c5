import Mathlib.Algebra.Order.BigOperators.Group.List
import Mathlib.Algebra.Order.Group.Nat
import Mathlib.Algebra.Ring.Nat
import Mathlib.Order.Comparable
import RootHelper.Posix.FileSystem

/-!
Trees side by side and trees in trees: the tree under a directory is the directory and the trees
under its entries, which is what counting the places of a tree goes by.
-/

set_option autoImplicit false

namespace Posix

section Incomparable

variable {p q r : Path}

theorem not_prefix_of_incompRel (h : IncompRel (· <+: ·) p q) (hp : p <+: r) : ¬ q <+: r := by
  intro hq
  rcases List.prefix_or_prefix_of_prefix hp hq with hpq | hqp
  · exact h.1 hpq
  · exact h.2 hqp

theorem incompRel_append (h : IncompRel (· <+: ·) p q) (t u : Path) :
    IncompRel (· <+: ·) (p ++ t) (q ++ u) := by
  refine ⟨fun hpre => ?_,fun hpre => ?_⟩
  · exact not_prefix_of_incompRel h ((List.prefix_append p t).trans hpre) (List.prefix_append q u)
  · exact not_prefix_of_incompRel h (List.prefix_append p t) ((List.prefix_append q u).trans hpre)

theorem incompRel_names {c d : Name} (h : c ≠ d) : IncompRel (· <+: ·) (p ++ [c]) (p ++ [d]) := by
  have hne : ∀ {c d : Name}, c ≠ d → ¬ p ++ [c] <+: p ++ [d] := by
    intro c d h hpre
    have heq := (List.prefix_append_right_inj p).mp hpre
    simp at heq
    exact h heq
  exact ⟨hne h,hne h.symm⟩

end Incomparable

/-- How many of `l`, all with the property `P`, are at or below `p`. -/
def countBelow (l : List Path) (P : Path → Bool) (p : Path) : Nat :=
  l.countP fun q => p <+: q ∧ P q

namespace FileSystem

variable {fs : FileSystem} {P : Path → Bool} {p q : Path}

/-- The places at or below `p`. -/
def places (fs : FileSystem) (p : Path) : List Path := fs.paths.filter (p <+: ·)

theorem mem_places : q ∈ fs.places p ↔ p <+: q ∧ fs.has q := by
  rw [places,List.mem_filter,fs.mem_paths,decide_eq_true_eq,and_comm]
  rfl

theorem nodup_places (fs : FileSystem) (p : Path) : (fs.places p).Nodup := fs.nodup.filter _

theorem places_children (h : fs.has p) {ns : List Name} (hns : ns.Perm (fs.children p)) :
    (fs.places p).Perm (p :: ns.flatMap fun c => fs.places (p ++ [c])) := by
  have hnodup : ns.Nodup := hns.nodup_iff.mpr (fs.nodup_children p)
  have hbelow : ∀ c q, q ∈ fs.places (p ++ [c]) → ∃ t, q = p ++ c :: t := by
    intro c q hq
    obtain ⟨t,rfl⟩ := (mem_places.mp hq).1
    exact ⟨t,by simp⟩
  refine (List.perm_ext_iff_of_nodup (nodup_places fs p) (List.nodup_cons.mpr ⟨?_,?_⟩)).mpr
    fun q => ?_
  · intro hp
    obtain ⟨c,_,hc⟩ := List.mem_flatMap.mp hp
    obtain ⟨t,ht⟩ := hbelow c p hc
    simp at ht
  · refine List.nodup_flatMap.mpr ⟨fun c _ => nodup_places fs _,hnodup.imp ?_⟩
    intro c d hne q hc hd
    obtain ⟨t,rfl⟩ := hbelow c q hc
    obtain ⟨t',ht'⟩ := hbelow d _ hd
    exact hne (List.cons.inj (List.append_cancel_left ht')).1
  · rw [List.mem_cons,List.mem_flatMap,mem_places]
    constructor
    · intro hq
      obtain ⟨⟨t,rfl⟩,hhas⟩ := hq
      cases t with
      | nil => exact .inl (List.append_nil p)
      | cons c t =>
        have hpre : p ++ [c] <+: p ++ c :: t := ⟨t,by simp⟩
        exact .inr ⟨c,hns.mem_iff.mpr (mem_children.mpr (has_of_above hhas hpre)),
          mem_places.mpr ⟨hpre,hhas⟩⟩
    · intro hq
      rcases hq with rfl | ⟨c,_,hc⟩
      · exact ⟨List.prefix_rfl,h⟩
      · obtain ⟨hpre,hhas⟩ := mem_places.mp hc
        exact ⟨(List.prefix_append _ _).trans hpre,hhas⟩

/-- The sum of `f` over them. -/
def total (fs : FileSystem) (f : Path → Nat) (p : Path) : Nat := ((fs.places p).map f).sum

theorem total_children {f : Path → Nat} (h : fs.has p) {ns : List Name}
    (hns : ns.Perm (fs.children p)) :
    fs.total f p = f p + (ns.map fun c => fs.total f (p ++ [c])).sum := by
  rw [total,((places_children h hns).map f).sum_nat,List.map_cons,List.sum_cons,List.map_flatMap,
    List.flatMap,List.sum_flatten,List.map_map]
  rfl

/-- How many places at or below `p` have the property `P`. -/
def count (fs : FileSystem) (P : Path → Bool) (p : Path) : Nat := countBelow fs.paths P p

/-- How many places are at or below `p`. -/
def size (fs : FileSystem) (p : Path) : Nat := fs.count (fun _ => true) p

theorem count_eq_total (fs : FileSystem) (P : Path → Bool) (p : Path) :
    fs.count P p = fs.total (fun q => if P q then 1 else 0) p := by
  have hsum : ∀ l : List Path, l.countP P = (l.map fun q => if P q then 1 else 0).sum := by
    intro l
    induction l with
    | nil => rfl
    | cons q l ih => rw [List.countP_cons,ih,List.map_cons,List.sum_cons,Nat.add_comm]
  rw [total,← hsum,places,List.countP_filter]
  refine List.countP_congr fun q _ => ?_
  simp [and_comm]

theorem count_children (h : fs.has p) {ns : List Name} (hns : ns.Perm (fs.children p)) :
    fs.count P p = (if P p then 1 else 0) + (ns.map fun c => fs.count P (p ++ [c])).sum := by
  simp only [count_eq_total]
  exact total_children h hns

theorem size_children (h : fs.has p) {ns : List Name} (hns : ns.Perm (fs.children p)) :
    fs.size p = 1 + (ns.map fun c => fs.size (p ++ [c])).sum := by
  simpa [size] using count_children (P := fun _ => true) h hns

theorem size_pos (h : fs.has p) : 0 < fs.size p := by
  rw [size_children h (List.Perm.refl _)]
  omega

theorem size_child_lt (h : fs.has p) (c : Name) : fs.size (p ++ [c]) < fs.size p := by
  by_cases hc : fs.has (p ++ [c])
  · have hmem : fs.size (p ++ [c]) ∈ (fs.children p).map fun c => fs.size (p ++ [c]) :=
      List.mem_map.mpr ⟨c,mem_children.mpr hc,rfl⟩
    have hle := List.single_le_sum (fun _ _ => Nat.zero_le _) _ hmem
    rw [size_children h (List.Perm.refl _)]
    omega
  · have hzero : fs.size (p ++ [c]) = 0 := by
      rw [size,count,countBelow,List.countP_eq_zero]
      intro q hq hpre
      simp only [decide_eq_true_eq,and_true] at hpre
      exact not_has_below hc hpre ((fs.mem_paths q).mp hq)
    have hpos := size_pos h
    omega

theorem size_le (fs : FileSystem) (p : Path) : fs.size p ≤ fs.paths.length := List.countP_le_length

end FileSystem
end Posix
