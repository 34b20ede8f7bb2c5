import RootHelper.Posix.Resolution
import RootHelper.Traversals

/-!
Links that lead back to where a search comes from. A search that goes behind none of them enters no
place a second time on its way, so it goes no deeper than there are places.
-/

set_option autoImplicit false

namespace RootHelper
open Posix Preorder DirIterator

section Statements

variable (a : Answers) (place : Str → Option Path) (root : Str)

/-- While `y` is at hand the directory `x` is being gone through: the root, or one between it and `y`. -/
def GoneThrough (y x : Str) : Prop := root <+: x ∧ ∃ z, y = x ++ slash :: z

/-- To the root, to a directory that is being gone through or to one above it. -/
def LeadsBack (y : Str) : Prop :=
  ∃ x p d, GoneThrough root y x ∧ place y = some p ∧ place x = some d ∧ p <+: d

def LeadsOn (y : Str) : Prop :=
  DirIterator.efdL a y = .d ∨ DirIterator.efdL a y = .L ∧ ¬ LeadsBack place root y

end Statements

section Search

variable {a : Answers} {fs : FileSystem} {place : Str → Option Path} {root : Str} {o : DirOptions}
  {f : Path → List Name} {rel : Path} {c : Name}

theorem gone_through {q rest : Path} (heq : rel = q ++ c :: rest) :
    GoneThrough root (spelled root rel) (spelled root q) := by
  refine ⟨List.prefix_append _ _,c ++ rest.flatMap (slash :: ·),?_⟩
  rw [heq,spelled,spelled,List.flatMap_append,List.flatMap_cons,List.append_assoc]
  rfl

theorem listed_of_mem_kids (h : c ∈ kids a o rel) :
    (∃ names, a.opendir (spelled o.dir rel) = some names ∧ c ∈ names) ∧
      (rel ≠ [] → visited a o (spelled o.dir rel)) := by
  unfold kids at h
  split_ifs at h with hvisited
  · refine ⟨?_,hvisited.resolve_left⟩
    cases hopen : a.opendir (spelled o.dir rel) with
    | none => simp [hopen] at h
    | some names =>
      refine ⟨names,rfl,?_⟩
      rw [hopen] at h
      simp only [Option.elim,List.mem_reverse,pushed] at h
      split_ifs at h
      · exact (List.mem_filter.mp ((List.mem_insertionSort _).mp h)).1
      · exact (List.mem_filter.mp h).1
  · simp at h

/-- A search of directories that are listed and of links that do not lead back. -/
def Straight (a : Answers) (place : Str → Option Path) (root : Str) (f : Path → List Name) : Prop :=
  ∀ rel c, Leads f [] rel → c ∈ f rel →
    (∃ names, a.opendir (spelled root rel) = some names ∧ c ∈ names) ∧
      (rel ≠ [] → LeadsOn a place root (spelled root rel))

theorem proper_of_leads (h : a.Shows fs place) (hf : Straight a place root f) (hrel : Leads f [] rel) :
    ∀ c ∈ rel, ProperName c := by
  induction rel using List.reverseRecOn with
  | nil => simp
  | append_singleton rel c ih =>
    obtain ⟨hrel,hc⟩ := leads_concat.mp hrel
    rw [List.nil_append] at hc
    obtain ⟨⟨names,hopen,hmem⟩,_⟩ := hf rel c hrel hc
    intro b hb
    rcases List.mem_append.mp hb with hb | hb
    · exact ih hrel b hb
    · rw [List.mem_singleton.mp hb]
      exact (h.names hopen).2 c hmem

theorem place_new (h : a.Shows fs place) (hnul : NulFree root) (hf : Straight a place root f)
    (hrel : Leads f [] (rel ++ [c])) :
    ∃ d, place (spelled root rel) = some d ∧ fs.isDir d ∧ ∀ q b rest, rel = q ++ b :: rest →
      ∀ d', place (spelled root q) = some d' → ¬ d <+: d' := by
  induction rel using List.reverseRecOn generalizing c with
  | nil =>
    obtain ⟨⟨names,hopen,_⟩,_⟩ := hf [] c trivial (leads_concat.mp hrel).2
    obtain ⟨d,hd,hdir,_⟩ := h.opendir hopen
    exact ⟨d,hd,hdir,fun q b rest heq => by simp at heq⟩
  | append_singleton rel b ih =>
    obtain ⟨hrel,hc⟩ := leads_concat.mp hrel
    rw [List.nil_append] at hc
    obtain ⟨d₀,hd₀,hdir₀,hnew₀⟩ := ih hrel
    obtain ⟨⟨names,hopen,_⟩,hon⟩ := hf _ c hrel hc
    obtain ⟨d,hd,hdir,_⟩ := h.opendir hopen
    refine ⟨d,hd,hdir,fun q e rest heq d' hd' hpre => ?_⟩
    rcases hon (by simp) with hreal | ⟨_,hnot⟩
    · -- an entry of the directory before it
      have hproper := proper_of_leads h hf hrel
      obtain ⟨st,hst,hkind⟩ := efdL_d.mp hreal
      rw [spelled_concat] at hst hd
      obtain ⟨n,_,hnkind,hplace⟩ := h.entry
        (nulFree_spelled_proper hnul fun c hc => hproper c (List.mem_append_left _ hc))
        (hproper b (by simp)) hd₀ hdir₀ hst
      have hnd : n.isDir := by
        rw [hkind] at hnkind
        cases n with
        | dir m => rfl
        | file content m => cases hnkind
        | link t => cases hnkind
      obtain rfl := Option.some.inj (hd.symm.trans (hplace hnd))
      rcases List.eq_nil_or_concat' rest with rfl | ⟨r,e',rfl⟩
      · obtain ⟨rfl,_⟩ := List.append_inj' heq rfl
        obtain rfl := Option.some.inj (hd₀.symm.trans hd')
        have hlen := hpre.length_le
        simp at hlen
      · rw [← List.cons_append,← List.append_assoc] at heq
        obtain ⟨hrel',_⟩ := List.append_inj' heq rfl
        exact hnew₀ q e r hrel' d' hd' ((List.prefix_append d₀ [b]).trans hpre)
    · exact hnot ⟨_,d,d',gone_through heq,hd,hd',hpre⟩

theorem shallow_of_straight (h : a.Shows fs place) (hnul : NulFree root)
    (hf : Straight a place root f) : Shallow f fs.paths.length [] := by
  intro rel hrel
  have hat : ∀ i, i < rel.length → ∃ d, place (spelled root (rel.take i)) = some d ∧ fs.isDir d ∧
      ∀ q b rest, rel.take i = q ++ b :: rest →
        ∀ d', place (spelled root q) = some d' → ¬ d <+: d' := by
    intro i hi
    refine place_new (c := rel[i]) h hnul hf ?_
    rw [List.take_append_getElem hi]
    have hsplit := List.take_append_drop (i+1) rel
    rw [← hsplit] at hrel
    exact (leads_append.mp hrel).1
  have hnodup : ((List.range rel.length).map fun i =>
      (place (spelled root (rel.take i))).getD []).Nodup := by
    rw [List.Nodup,List.pairwise_map]
    refine List.Pairwise.imp_of_mem (fun {i j} hi hj hlt heq => ?_) List.pairwise_lt_range
    obtain ⟨d,hd,_⟩ := hat i (List.mem_range.mp hi)
    obtain ⟨d',hd',_,hnew⟩ := hat j (List.mem_range.mp hj)
    obtain ⟨r,hr⟩ : rel.take i <+: rel.take j := List.take_prefix_take_left (by omega)
    cases r with
    | nil =>
      have hlen := congrArg List.length hr
      have hj := List.mem_range.mp hj
      simp only [List.append_nil,List.length_take] at hlen
      omega
    | cons b r =>
      rw [hd,hd'] at heq
      obtain rfl : d = d' := heq
      exact hnew _ b r hr.symm d hd List.prefix_rfl
  have hsub := List.subperm_of_subset hnodup fun d hd => by
    obtain ⟨i,hi,rfl⟩ := List.mem_map.mp hd
    obtain ⟨d,hd,hdir,_⟩ := hat i (List.mem_range.mp hi)
    rw [hd]
    exact (fs.mem_paths _).mpr (FileSystem.has_of_isDir hdir)
  simpa using hsub.length_le

end Search

section Following

def NoCycles (a : Answers) (place : Str → Option Path) (o : DirOptions) : Prop :=
  ∀ rel, Leads (kids a o) [] rel → rel ≠ [] → DirIterator.efdL a (spelled o.dir rel) = .L →
    ¬ LeadsBack place o.dir (spelled o.dir rel)

variable {a : Answers} {fs : FileSystem} {place : Str → Option Path} {o : DirOptions}

theorem straight_of_noCycles (hfollow : o.recursiveListing = .RECURSIVE_FOLLOW_SYMLINKS)
    (hcycles : NoCycles a place o) : Straight a place o.dir (kids a o) := by
  intro rel c hrel hc
  obtain ⟨hlisted,hvisited⟩ := listed_of_mem_kids hc
  refine ⟨hlisted,fun hne => ?_⟩
  have hefd := hvisited hne
  simp only [visited,hfollow,decide_eq_true_eq] at hefd
  exact hefd.imp_right fun hlink => ⟨hlink,hcycles rel hrel hne hlink⟩

theorem shallow_of_noCycles (h : a.Shows fs place) (hnul : NulFree o.dir)
    (hfollow : o.recursiveListing = .RECURSIVE_FOLLOW_SYMLINKS) (hcycles : NoCycles a place o) :
    Shallow (kids a o) fs.paths.length [] :=
  shallow_of_straight h hnul (straight_of_noCycles hfollow hcycles)

end Following

end RootHelper
