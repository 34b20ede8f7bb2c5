import RootHelper.Posix.Trees

/-!
The leaves of a tree, which say what the tree is: every place of it is one or is above one.
-/

set_option autoImplicit false

namespace Posix.FileSystem

variable {fs : FileSystem} {p q : Path}

theorem proper_of_mem {t : Path} (hhas : fs.has (p ++ t)) : ∀ c ∈ t, ProperName c := by
  induction t using List.reverseRecOn with
  | nil => simp
  | append_singleton t c ih =>
    rw [← List.append_assoc] at hhas
    have hrest := ih (has_of_above hhas (List.prefix_append _ _))
    intro d hd
    rcases List.mem_append.mp hd with hd | hd
    · exact hrest d hd
    · exact List.mem_singleton.mp hd ▸ proper_of_has hhas

/-- There are only files and directories. -/
def NoLinks (fs : FileSystem) : Prop := ∀ p t, fs.node p ≠ some (.link t)

theorem noLinks_ofEntries {l : List (Path × Node)} {h : WellFormed l}
    (hl : ∀ x ∈ l, ∀ t, x.2 ≠ .link t) : (ofEntries l h).NoLinks := by
  intro p t hp
  obtain ⟨l₁,l₂,rfl,_⟩ := List.lookup_eq_some_iff.mp hp
  exact hl (p,.link t) (by simp) t rfl

/-- What the file at `p` holds. -/
def fileAt (fs : FileSystem) (p : Path) : Option Str :=
  match fs.node p with
  | some (.file content _) => some content
  | _ => none

/-- What has nothing below it: a file, a link or an empty directory. -/
def Leaf (fs : FileSystem) (p : Path) : Prop := fs.has p ∧ fs.children p = []

theorem Leaf.eq (h : fs.Leaf p) (hp : p <+: q) (hq : fs.has q) : p = q := by
  by_contra hne
  exact not_has_below_childless h.2 hp hne hq

theorem node_of_fileAt {content : Str} (h : fs.fileAt p = some content) :
    ∃ m, fs.node p = some (.file content m) := by
  unfold fileAt at h
  split at h
  · rename_i m hnode
    exact ⟨m,by rw [hnode,Option.some.inj h]⟩
  · simp at h

theorem leaf_of_fileAt {content : Str} (h : fs.fileAt p = some content) : fs.Leaf p := by
  obtain ⟨m,hnode⟩ := node_of_fileAt h
  exact ⟨has_iff.mpr ⟨_,hnode⟩,children_of_not_isDir (by simp [isDir,hnode,Node.isDir])⟩

theorem exists_leaf (h : fs.has p) : ∃ t, fs.Leaf (p ++ t) := by
  generalize hn : fs.size p = n
  induction n using Nat.strongRecOn generalizing p with
  | ind n ih =>
    cases hc : fs.children p with
    | nil => exact ⟨[],by rwa [List.append_nil],by rwa [List.append_nil]⟩
    | cons c ns =>
      have hchild : fs.has (p ++ [c]) := mem_children.mp (by simp [hc])
      obtain ⟨t,ht⟩ := ih _ (hn ▸ size_child_lt h c) hchild rfl
      exact ⟨c :: t,by rwa [List.append_assoc,List.singleton_append] at ht⟩

/-- `l` has, each once, the ways from `p` down to the leaves of its tree. -/
structure LeavesOf (fs : FileSystem) (p : Path) (l : List Path) : Prop where
  nodup : l.Nodup
  mem : ∀ t, t ∈ l ↔ fs.Leaf (p ++ t)

/-- Those among them that begin with a name of `ns`. -/
structure Branches (fs : FileSystem) (p : Path) (ns : List Name) (l : List Path) : Prop where
  nodup : l.Nodup
  mem : ∀ t, t ∈ l ↔ ∃ c t', c ∈ ns ∧ t = c :: t' ∧ fs.Leaf (p ++ t)

theorem Leaf.leavesOf (h : fs.Leaf p) : fs.LeavesOf p [[]] := by
  refine ⟨by simp,fun t => ?_⟩
  rw [List.mem_singleton]
  constructor
  · intro ht
    rwa [ht,List.append_nil]
  · intro ht
    exact (List.self_eq_append_right.mp (h.eq (List.prefix_append p t) ht.1))

theorem branches_nil (fs : FileSystem) (p : Path) : fs.Branches p [] [] := ⟨by simp,by simp⟩

theorem LeavesOf.branches {c : Name} {ns : List Name} {l l' : List Path}
    (h : fs.LeavesOf (p ++ [c]) l) (hc : c ∉ ns) (h' : fs.Branches p ns l') :
    fs.Branches p (c :: ns) (l.map (c :: ·) ++ l') := by
  have hmap : ∀ t, t ∈ l.map (c :: ·) ↔ ∃ t', t = c :: t' ∧ fs.Leaf (p ++ t) := by
    intro t
    rw [List.mem_map]
    constructor
    · intro ht
      obtain ⟨t',ht',rfl⟩ := ht
      have hleaf := (h.mem t').mp ht'
      rw [List.append_assoc,List.singleton_append] at hleaf
      exact ⟨t',rfl,hleaf⟩
    · intro ht
      obtain ⟨t',rfl,hleaf⟩ := ht
      refine ⟨t',(h.mem t').mpr ?_,rfl⟩
      rwa [List.append_assoc,List.singleton_append]
  refine ⟨?_,fun t => ?_⟩
  · refine List.Nodup.append (h.nodup.map fun a b hab => (List.cons.inj hab).2) h'.nodup ?_
    intro t ht ht'
    obtain ⟨s,rfl,_⟩ := (hmap t).mp ht
    obtain ⟨d,s',hd,heq,_⟩ := (h'.mem _).mp ht'
    rw [(List.cons.inj heq).1] at hc
    exact hc hd
  · rw [List.mem_append,hmap,h'.mem]
    constructor
    · intro ht
      rcases ht with ⟨t',ht',hleaf⟩ | ⟨d,t',hd,ht',hleaf⟩
      · exact ⟨c,t',List.mem_cons_self,ht',hleaf⟩
      · exact ⟨d,t',List.mem_cons_of_mem _ hd,ht',hleaf⟩
    · intro ht
      obtain ⟨d,t',hd,ht',hleaf⟩ := ht
      rcases List.mem_cons.mp hd with rfl | hd
      · exact .inl ⟨t',ht',hleaf⟩
      · exact .inr ⟨d,t',hd,ht',hleaf⟩

theorem Branches.leavesOf {c : Name} {ns : List Name} {l : List Path} (h : fs.Branches p ns l)
    (hns : ns.Perm (fs.children p)) (hc : c ∈ ns) : fs.LeavesOf p l := by
  refine ⟨h.nodup,fun t => ?_⟩
  rw [h.mem]
  constructor
  · intro ht
    obtain ⟨_,_,_,_,hleaf⟩ := ht
    exact hleaf
  · intro hleaf
    cases t with
    | nil =>
      rw [List.append_nil] at hleaf
      rw [hns.mem_iff,hleaf.2] at hc
      simp at hc
    | cons d t =>
      refine ⟨d,t,?_,rfl,hleaf⟩
      rw [hns.mem_iff,mem_children]
      exact has_of_above hleaf.1 ⟨t,by simp⟩

theorem sum_filter_ne_zero (f : Path → Nat) (l : List Path) :
    ((l.filter (f · ≠ 0)).map f).sum = (l.map f).sum := by
  induction l with
  | nil => rfl
  | cons q l ih =>
    by_cases hq : f q = 0
    · simp only [List.map_cons,List.sum_cons]
      rw [List.filter_cons_of_neg (by simpa using hq),ih,hq,Nat.zero_add]
    · rw [List.filter_cons_of_pos (by simpa using hq),List.map_cons,List.sum_cons,ih,List.map_cons,
        List.sum_cons]

theorem LeavesOf.total {l : List Path} {f : Path → Nat} (h : fs.LeavesOf p l)
    (hf : ∀ q, fs.has q → f q ≠ 0 → fs.Leaf q) :
    fs.total f p = (l.map fun t => f (p ++ t)).sum := by
  have hperm : ((fs.places p).filter (f · ≠ 0)).Perm ((l.map (p ++ ·)).filter (f · ≠ 0)) := by
    refine (List.perm_ext_iff_of_nodup ((nodup_places fs p).filter _)
      ((h.nodup.map fun a b hab => List.append_cancel_left hab).filter _)).mpr fun q => ?_
    simp only [List.mem_filter,mem_places,List.mem_map]
    refine and_congr_left fun hq => ?_
    have hq : f q ≠ 0 := by simpa using hq
    constructor
    · intro hplace
      obtain ⟨⟨t,rfl⟩,hhas⟩ := hplace
      exact ⟨t,(h.mem t).mpr (hf _ hhas hq),rfl⟩
    · intro hleaf
      obtain ⟨t,ht,rfl⟩ := hleaf
      exact ⟨List.prefix_append _ _,((h.mem t).mp ht).1⟩
  have hsum := (hperm.map f).sum_nat
  rw [sum_filter_ne_zero,sum_filter_ne_zero,List.map_map] at hsum
  exact hsum

end Posix.FileSystem
