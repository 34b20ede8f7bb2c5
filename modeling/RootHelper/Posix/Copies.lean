import Mathlib.Data.List.Pairwise
import RootHelper.Posix.Leaves
import RootHelper.Posix.Walk

/-!
Trees copied next to each other: what holds while some parts of them are still to be copied, and
that making the next file or directory keeps it.
-/

set_option autoImplicit false

namespace Posix

/-- The same node, but for the mode of a directory. -/
def Like (n n' : Option Node) : Prop :=
  n' = n ∨ ∃ m m', n = some (.dir m) ∧ n' = some (.dir m')

abbrev Places := List (Path × Path)

/-- No tree, copied or made, reaches into another. -/
def Scattered (pls : Places) : Prop :=
  (pls.map Prod.fst ++ pls.map Prod.snd).Pairwise (IncompRel (· <+: ·))

variable {pls todo : Places} {pl pl' : Path × Path} {a b p q : Path} {c : Name}

theorem Scattered.perm {pls' : Places} (h : Scattered pls) (hperm : pls.Perm pls') :
    Scattered pls' :=
  ((hperm.map _).append (hperm.map _)).pairwise h fun h => h.symm

theorem Scattered.eq_of_below (h : Scattered pls) (hpl : pl ∈ pls) (hpl' : pl' ∈ pls)
    (hpre : pl.2 <+: pl'.2) : pl = pl' := by
  obtain ⟨_,hdests,_⟩ := List.pairwise_append.mp h
  by_contra hne
  rw [List.pairwise_map] at hdests
  have hsymm : Std.Symm fun ab cd : Path × Path => IncompRel (· <+: ·) ab.2 cd.2 :=
    ⟨fun _ _ h => h.symm⟩
  exact (hdests.forall hpl hpl' hne).1 hpre

theorem Scattered.unique (h : Scattered pls) {r r' : Path} (hpl : pl ∈ pls) (hpl' : pl' ∈ pls)
    (he : pl.2 ++ r = pl'.2 ++ r') : pl = pl' ∧ r = r' := by
  have hpre : pl.2 <+: pl'.2 ++ r' := ⟨r,he⟩
  have hsame : pl = pl' := by
    rcases List.prefix_or_prefix_of_prefix hpre (List.prefix_append _ _) with h' | h'
    · exact h.eq_of_below hpl hpl' h'
    · exact (h.eq_of_below hpl' hpl h').symm
  subst hsame
  exact ⟨rfl,List.append_cancel_left he⟩

theorem Scattered.source (h : Scattered pls) (hpl : pl ∈ pls) (hpl' : pl' ∈ pls) (r : Path) :
    ¬ pl'.2 <+: pl.1 ++ r := by
  obtain ⟨_,_,hacross⟩ := List.pairwise_append.mp h
  have hapart := hacross _ (List.mem_map_of_mem hpl) _ (List.mem_map_of_mem hpl')
  exact not_prefix_of_incompRel hapart (List.prefix_append pl.1 r)

namespace FileSystem

variable {fs fs' fs₀ : FileSystem}

/-- Two file systems that differ at one place at most, which was free. -/
structure MadeAt (b : Path) (fs fs' : FileSystem) : Prop where
  free : ¬ fs.has b
  others : ∀ q, q ≠ b → fs'.node q = fs.node q

theorem MadeAt.le (h : MadeAt b fs fs') : fs.Le fs' := by
  intro q n hn
  have hne : q ≠ b := fun he => h.free (he ▸ has_iff.mpr ⟨n,hn⟩)
  rw [h.others q hne]
  exact hn

theorem MadeAt.free_below (h : MadeAt b fs fs') (c : Name) (r : Path) :
    fs'.node (b ++ c :: r) = none := by
  rw [h.others _ (by simp)]
  exact node_of_not_has (not_has_below h.free ⟨c :: r,rfl⟩)

/-- Of the trees at `pls` in `fs₀` the parts in `todo` are still to be copied. Everything else of
them is at its destination, and nothing is changed but there. -/
structure PartlyCopied (fs₀ : FileSystem) (pls todo : Places) (fs : FileSystem) : Prop where
  part : ∀ ab ∈ todo, ∃ pl ∈ pls, ∃ r, ab = (pl.1 ++ r,pl.2 ++ r)
  apart : todo.Pairwise fun ab cd => IncompRel (· <+: ·) ab.2 cd.2
  done : ∀ pl ∈ pls, ∀ r, (∀ ab ∈ todo, ¬ ab.2 <+: pl.2 ++ r) →
    Like (fs₀.node (pl.1 ++ r)) (fs.node (pl.2 ++ r))
  others : ∀ q, (∀ pl ∈ pls, ¬ pl.2 <+: q) → fs.node q = fs₀.node q

theorem partlyCopied_start (h : Scattered pls) : PartlyCopied fs₀ pls pls fs₀ := by
  refine ⟨fun ab hab => ⟨ab,hab,[],by simp⟩,?_,fun pl hpl r hnone => ?_,fun _ _ => rfl⟩
  · exact List.pairwise_map.mp (List.pairwise_append.mp h).2.1
  · exact absurd (List.prefix_append _ _) (hnone pl hpl)

theorem PartlyCopied.source (h : PartlyCopied fs₀ pls todo fs) (hpls : Scattered pls)
    {ab : Path × Path} (hab : ab ∈ todo) (r : Path) : fs.node (ab.1 ++ r) = fs₀.node (ab.1 ++ r) := by
  obtain ⟨pl,hpl,r',rfl⟩ := h.part ab hab
  refine h.others _ fun pl' hpl' => ?_
  rw [List.append_assoc]
  exact hpls.source hpl hpl' _

theorem PartlyCopied.source_ne (h : PartlyCopied fs₀ pls todo fs) (hpls : Scattered pls)
    {ab cd : Path × Path} (hab : ab ∈ todo) (hcd : cd ∈ todo) (t : Path) : ab.1 ++ t ≠ cd.2 := by
  obtain ⟨pl,hpl,r,rfl⟩ := h.part ab hab
  obtain ⟨pl',hpl',r',rfl⟩ := h.part cd hcd
  intro he
  refine hpls.source hpl hpl' (r ++ t) ⟨r',?_⟩
  simpa using he.symm

/-- The next part is made, and what of it is still missing joins what is to be copied. -/
theorem PartlyCopied.made {todo' : Places} (h : PartlyCopied fs₀ pls ((a,b) :: todo) fs)
    (hpls : Scattered pls) (hmade : MadeAt b fs fs') (hlike : Like (fs₀.node a) (fs'.node b))
    (hpart : ∀ ab ∈ todo', ∃ c, ab = (a ++ [c],b ++ [c]))
    (hapart : todo'.Pairwise fun ab cd => IncompRel (· <+: ·) ab.2 cd.2)
    (hrest : ∀ c r, fs₀.has (a ++ c :: r) → (a ++ [c],b ++ [c]) ∈ todo') :
    PartlyCopied fs₀ pls (todo' ++ todo) fs' := by
  obtain ⟨pl₀,hpl₀,r₀,hab⟩ := h.part (a,b) List.mem_cons_self
  obtain ⟨rfl,rfl⟩ := Prod.mk.inj hab
  obtain ⟨haway,htodo⟩ := List.pairwise_cons.mp h.apart
  refine ⟨fun ab hmem => ?_,?_,fun pl hpl r hnone => ?_,fun q hq => ?_⟩
  · rcases List.mem_append.mp hmem with hmem | hmem
    · obtain ⟨c,rfl⟩ := hpart ab hmem
      exact ⟨pl₀,hpl₀,r₀ ++ [c],by simp⟩
    · exact h.part ab (List.mem_cons_of_mem _ hmem)
  · refine List.pairwise_append.mpr ⟨hapart,htodo,fun ab hmem cd hcd => ?_⟩
    obtain ⟨c,rfl⟩ := hpart ab hmem
    simpa using incompRel_append (haway cd hcd) [c] []
  · by_cases hbelow : pl₀.2 ++ r₀ <+: pl.2 ++ r
    · obtain ⟨r',hr'⟩ := hbelow
      rw [List.append_assoc] at hr'
      obtain ⟨rfl,rfl⟩ := hpls.unique hpl₀ hpl hr'
      cases r' with
      | nil => rwa [List.append_nil]
      | cons c r' =>
        have habsent : ¬ fs₀.has (pl₀.1 ++ r₀ ++ c :: r') := by
          intro hhas
          refine hnone _ (List.mem_append_left _ (hrest c r' hhas)) ⟨r',?_⟩
          simp
        left
        rw [← List.append_assoc,← List.append_assoc,hmade.free_below,node_of_not_has habsent]
    · have hold := h.done pl hpl r fun ab hmem => by
        rcases List.mem_cons.mp hmem with rfl | hmem
        · exact hbelow
        · exact hnone ab (List.mem_append_right _ hmem)
      rwa [hmade.others _ fun he => hbelow (he ▸ List.prefix_rfl)]
  · have hne : q ≠ pl₀.2 ++ r₀ := fun he => hq pl₀ hpl₀ ⟨r₀,he.symm⟩
    rw [hmade.others q hne]
    exact h.others q hq

theorem PartlyCopied.file {content : Str} {m : Nat} (h : PartlyCopied fs₀ pls ((a,b) :: todo) fs)
    (hpls : Scattered pls) (hmade : MadeAt b fs fs') (hnode : fs₀.node a = some (.file content m))
    (hb : fs'.node b = some (.file content m)) : PartlyCopied fs₀ pls todo fs' := by
  refine @PartlyCopied.made _ _ _ _ _ _ _ [] h hpls hmade (.inl (hb.trans hnode.symm)) (by simp)
    .nil fun c r hhas => ?_
  have hdir := isDir_of_above hhas (List.prefix_append a _) (by simp)
  simp [isDir,hnode,Node.isDir] at hdir

theorem PartlyCopied.dir {m m' : Nat} {ns : List Name}
    (h : PartlyCopied fs₀ pls ((a,b) :: todo) fs) (hpls : Scattered pls) (hmade : MadeAt b fs fs')
    (hnode : fs₀.node a = some (.dir m)) (hb : fs'.node b = some (.dir m'))
    (hns : ns.Perm (fs₀.children a)) :
    PartlyCopied fs₀ pls ((ns.map fun c => (a ++ [c],b ++ [c])) ++ todo) fs' := by
  refine h.made hpls hmade (.inr ⟨m,m',hnode,hb⟩) (fun ab hmem => ?_) ?_ fun c r hhas => ?_
  · obtain ⟨c,_,rfl⟩ := List.mem_map.mp hmem
    exact ⟨c,rfl⟩
  · have hnodup : ns.Nodup := hns.nodup_iff.mpr (fs₀.nodup_children a)
    exact List.pairwise_map.mpr (hnodup.imp fun hne => incompRel_names hne)
  · have hchild : fs₀.has (a ++ [c]) := has_of_above hhas ⟨r,by simp⟩
    exact List.mem_map.mpr ⟨c,hns.mem_iff.mpr (mem_children.mpr hchild),rfl⟩

/-- The places of the files at or below `p`. -/
def filesBelow (fs : FileSystem) (p : Path) : List Path :=
  (fs.places p).filter fun q => (fs.fileAt q).isSome

theorem filesBelow_children {ns : List Name} (h : fs.has p) (hns : ns.Perm (fs.children p)) :
    (fs.filesBelow p).Perm ((if (fs.fileAt p).isSome then [p] else []) ++
      ns.flatMap fun c => fs.filesBelow (p ++ [c])) := by
  have hperm := (places_children h hns).filter fun q => (fs.fileAt q).isSome
  rw [List.filter_cons,List.filter_flatMap] at hperm
  unfold filesBelow
  split <;> simp_all

theorem filesBelow_file {content : Str} (h : fs.fileAt p = some content) :
    (fs.filesBelow p).Perm [p] := by
  have hleaf := leaf_of_fileAt h
  have hperm := @filesBelow_children _ _ [] hleaf.1 (by rw [hleaf.2])
  simpa [h] using hperm

end FileSystem

end Posix
