import RootHelper.LinkCycles

/-!
A recursive search that follows links, except to where it comes from. Which links those are it tells by
comparing texts: the search ends where this agrees with where the links lead.
-/

set_option autoImplicit false

namespace RootHelper
open Posix Preorder DirIterator

section Statements

variable (a : Answers) (place : Str → Option Path) (root : Str)

/-- The text of a link to a directory shows it where it leads back: its path begins with it, or the
root does. -/
def TextShows (y : Str) : Prop :=
  DirIterator.efdL a y = .L → LeadsBack place root y → ∀ target, a.readlink y = some target →
    target.take 65536 <+: y ∨ target.take 65536 <+: root

end Statements

section Search

variable {a : Answers} {fs : FileSystem} {place : Str → Option Path} {o : DirOptions}

theorem not_visited (hsmart : o.recursiveListing = .SMART_SYMLINK_RESOLUTION) {y : Str}
    (htext : TextShows a place o.dir y) (hlink : DirIterator.efdL a y = .L)
    (hback : LeadsBack place o.dir y) : visited a o y = false := by
  simp only [visited,hsmart,hlink,smartVisitSymlink]
  cases htarget : a.readlink y with
  | none => simp
  | some target =>
    rcases htext hlink hback target htarget with hpre | hpre
    · simp [List.isPrefixOf_iff_prefix.mpr hpre]
    · simp [List.isPrefixOf_iff_prefix.mpr hpre]

open Classical in
/-- The search, where it does not go on behind a link whose text does not show where it leads. -/
noncomputable def shownKids (a : Answers) (place : Str → Option Path) (o : DirOptions) (rel : Path) :
    List Name :=
  if rel = [] ∨ TextShows a place o.dir (spelled o.dir rel) then kids a o rel else []

theorem straight_shownKids (hsmart : o.recursiveListing = .SMART_SYMLINK_RESOLUTION) :
    Straight a place o.dir (shownKids a place o) := by
  intro rel c _ hc
  unfold shownKids at hc
  split_ifs at hc with htext
  · obtain ⟨hlisted,hvisited⟩ := listed_of_mem_kids hc
    refine ⟨hlisted,fun hne => ?_⟩
    have hgoes := hvisited hne
    simp only [visited,hsmart,Bool.decide_and,Bool.and_eq_true,decide_eq_true_eq] at hgoes
    refine hgoes.1.imp_right fun hlink => ⟨hlink,fun hback => ?_⟩
    have hno := not_visited hsmart (htext.resolve_left hne) hlink hback
    rw [hvisited hne] at hno
    exact absurd hno (by simp)
  · simp at hc

theorem visits_shownKids {R R' l : List Path} (h : Visits (kids a o) R l R')
    (htexts : ∀ rel ∈ l, TextShows a place o.dir (spelled o.dir rel)) :
    Visits (shownKids a place o) R l R' := by
  induction h with
  | start R => exact .start R
  | @next rel R l R' _ ih =>
    have hsame : shownKids a place o rel = kids a o rel := if_pos (.inr (htexts rel List.mem_cons_self))
    refine .next ?_
    rw [hsame]
    exact ih fun rel' hrel' => htexts rel' (List.mem_cons_of_mem rel hrel')

/-- In a run whose links to directories show it where they lead back, none of these is followed, and
there is a number of turns no such run goes beyond. -/
theorem smartSearch_right (h : a.Shows fs place) (hnul : NulFree o.dir)
    (hsmart : o.recursiveListing = .SMART_SYMLINK_RESOLUTION) :
    (∀ steps it', Runs a (createIterator a o) steps it' →
      (∀ step ∈ steps, TextShows a place o.dir step.1) →
      ∀ step ∈ steps, DirIterator.efdL a step.1 = .L → LeadsBack place o.dir step.1 →
        visited a o step.1 = false) ∧
    ∃ turns, ∀ steps it', Runs a (createIterator a o) steps it' →
      (∀ step ∈ steps, TextShows a place o.dir step.1) → steps.length ≤ turns := by
  refine ⟨fun steps it' _ htexts step hstep hlink hback =>
    not_visited hsmart (htexts step hstep) hlink hback,?_⟩
  have hdepth := shallow_of_straight h hnul (@straight_shownKids a place o hsmart)
  refine ⟨(below (shownKids a place o) fs.paths.length []).length,fun steps it' hruns htexts => ?_⟩
  have hroot : shownKids a place o [] = kids a o [] := if_pos (.inl rfl)
  by_cases hopen : absolute o.dir ∧ (a.opendir o.dir).isSome
  · obtain ⟨habs,hsome⟩ := hopen
    obtain ⟨names,hnames⟩ := Option.isSome_iff_exists.mp hsome
    obtain ⟨l,R',hvisits,_,rfl⟩ := hruns.visits (stacked_createIterator habs hnames) fun rel hrel => by
      obtain ⟨c,_,rfl⟩ := List.mem_map.mp hrel
      simp
    have hshown := @visits_shownKids a place o _ _ _ hvisits fun rel hrel =>
      htexts (spelled o.dir rel,itemOf a o rel) (List.mem_map_of_mem hrel)
    rw [← hroot] at hshown
    obtain ⟨r,hr,_⟩ := hshown.rest (visits_below hdepth)
    rw [hr,List.length_map,List.length_append]
    omega
  · have hempty := createIterator_unopened hopen
    cases hruns with
    | start => exact Nat.zero_le _
    | next hS _ _ =>
      rw [hempty] at hS
      cases hS

end Search

def smartSearch (root : Str) : DirOptions :=
  ⟨root,.FULL,true,.SMART_SYMLINK_RESOLUTION,false,fun _ => true⟩

/-- The link "/r/d/l" leads to the root of the search and is spelled so. -/
def upTree : FileSystem :=
  .ofEntries [([],.dir 0o755),([text ['r']],.dir 0o755),([text ['r'],text ['d']],.dir 0o755),
    ([text ['r'],text ['d'],text ['l']],.link (text ['/','r']))] (by decide)

noncomputable def upAnswers : Answers := System.calm.toKernel.answersAll upTree fun _ => true

noncomputable def upPlace : Str → Option Path := System.calm.toKernel.followAll upTree

theorem up_textShows (y : Str) : TextShows upAnswers upPlace (text ['/','r']) y := by
  intro _ _ target htarget
  have hnodes : ∀ p ∈ upTree.paths, upTree.node p = some (.dir 0o755) ∨
      upTree.node p = some (.link (text ['/','r'])) := by decide +kernel
  simp only [upAnswers,Kernel.answersAll] at htarget
  cases hnode : (System.calm.toKernel.glanceAll upTree y).bind upTree.node with
  | none => simp [hnode] at htarget
  | some n =>
    obtain ⟨p,-,hp⟩ := Option.bind_eq_some_iff.mp hnode
    rcases hnodes p ((upTree.mem_paths p).mpr (FileSystem.has_iff.mpr ⟨n,hp⟩)) with hdir | hlink
    · obtain rfl := Option.some.inj (hp.symm.trans hdir)
      simp [hnode] at htarget
    · obtain rfl := Option.some.inj (hp.symm.trans hlink)
      simp only [hnode,Option.some.injEq] at htarget
      subst htarget
      exact .inr (List.take_prefix _ _)

theorem smartSearch_right_up :
    (∀ steps it', Runs upAnswers (createIterator upAnswers (smartSearch (text ['/','r']))) steps it' →
      ∀ step ∈ steps, DirIterator.efdL upAnswers step.1 = .L →
        LeadsBack upPlace (text ['/','r']) step.1 →
        visited upAnswers (smartSearch (text ['/','r'])) step.1 = false) ∧
    ∃ turns, ∀ steps it',
      Runs upAnswers (createIterator upAnswers (smartSearch (text ['/','r']))) steps it' →
        steps.length ≤ turns := by
  have hright := @smartSearch_right upAnswers upTree upPlace (smartSearch (text ['/','r']))
    (Kernel.answersAll_shows _ _ _) (by decide) rfl
  obtain ⟨turns,hends⟩ := hright.2
  exact ⟨fun steps it' hruns => hright.1 steps it' hruns fun step _ => up_textShows step.1,
    turns,fun steps it' hruns => hends steps it' hruns fun step _ => up_textShows step.1⟩

/-- The link "/r/l" leads to the directory it is in, as ".". -/
def loopTree : FileSystem :=
  .ofEntries [([],.dir 0o755),([text ['r']],.dir 0o755),([text ['r'],text ['l']],.link (text ['.']))]
    (by decide)

noncomputable def loopAnswers : Answers := System.calm.toKernel.answersAll loopTree fun _ => true

noncomputable def loopPlace : Str → Option Path := System.calm.toKernel.followAll loopTree

section Loop

def around (n : Nat) : Path := List.replicate n (text ['l'])

theorem around_succ (n : Nat) : around (n+1) = around n ++ [text ['l']] := List.replicate_succ'

theorem nulFree_around (n : Nat) : NulFree (spelled (text ['/','r']) (around n)) :=
  nulFree_spelled_proper (by decide) fun c hc => by
    rw [List.eq_of_mem_replicate hc]
    decide

theorem loopPlace_around (n : Nat) :
    loopPlace (spelled (text ['/','r']) (around n)) = some [text ['r']] := by
  induction n with
  | zero =>
    rw [around,List.replicate_zero,spelled_nil,loopPlace,Kernel.followAll]
    rw [if_neg (by decide)]
    exact (Kernel.resolve_eq_some _ _).mpr ⟨0,by decide +kernel⟩
  | succ n ih =>
    rw [around_succ,spelled_concat]
    refine Kernel.followAll_entry (nulFree_around n) (by decide) ih ?_
    exact (Kernel.resolve_eq_some _ _).mpr ⟨1,by decide +kernel⟩

theorem loop_node (n : Nat) :
    (System.calm.toKernel.glanceAll loopTree (spelled (text ['/','r']) (around (n+1)))).bind
      loopTree.node = some (.link (text ['.'])) := by
  have hdir : loopTree.node [text ['r']] = some (.dir 0o755) := by decide +kernel
  rw [around_succ,spelled_concat,
    Kernel.glanceAll_child (nulFree_around n) (by decide) (loopPlace_around n) hdir]
  decide +kernel

theorem loop_efdL (n : Nat) :
    DirIterator.efdL loopAnswers (spelled (text ['/','r']) (around (n+1))) = .L := by
  refine efdL_L.mpr ⟨⟨Node.stat (.link (text ['.'])),?_,rfl⟩,Node.stat (.dir 0o755),?_,rfl⟩
  · simp only [loopAnswers,Kernel.answersAll,loop_node,Option.map_some]
  · have hplace := loopPlace_around (n+1)
    rw [loopPlace] at hplace
    have hdir : loopTree.node [text ['r']] = some (.dir 0o755) := by decide +kernel
    simp only [loopAnswers,Kernel.answersAll,hplace,Option.bind_some,hdir,Option.map_some]

theorem loop_readlink (n : Nat) :
    loopAnswers.readlink (spelled (text ['/','r']) (around (n+1))) = some (text ['.']) := by
  simp only [loopAnswers,Kernel.answersAll,loop_node]

theorem loop_opendir (n : Nat) :
    loopAnswers.opendir (spelled (text ['/','r']) (around n)) = some [text ['l']] := by
  have hplace := loopPlace_around n
  rw [loopPlace] at hplace
  have hdir : loopTree.isDir [text ['r']] := by decide +kernel
  have hlist : loopTree.children [text ['r']] = [text ['l']] := by decide +kernel
  simp only [loopAnswers,Kernel.answersAll,hplace,hdir,hlist]
  simp

theorem loop_visited (n : Nat) :
    visited loopAnswers (smartSearch (text ['/','r'])) (spelled (text ['/','r']) (around (n+1))) := by
  have hstart : (text ['.']).isPrefixOf (spelled (text ['/','r']) (around (n+1))) = false := by
    rw [spelled]
    rfl
  have hroot : (text ['.']).isPrefixOf (text ['/','r']) = false := by decide
  have htext : (text ['.']).take 65536 = text ['.'] := List.take_of_length_le (by decide)
  simp only [visited,smartSearch,smartVisitSymlink,loop_efdL,loop_readlink,htext,hstart,hroot]
  decide

theorem loop_kids (n : Nat) :
    kids loopAnswers (smartSearch (text ['/','r'])) (around n) = [text ['l']] := by
  have hgo : around n = [] ∨
      visited loopAnswers (smartSearch (text ['/','r'])) (spelled (text ['/','r']) (around n)) := by
    cases n with
    | zero => exact .inl rfl
    | succ n => exact .inr (loop_visited n)
  have hdir : (smartSearch (text ['/','r'])).dir = text ['/','r'] := rfl
  rw [kids,hdir,if_pos hgo,loop_opendir]
  rfl

theorem loop_visits {R l R' : List Path} (h : Visits (kids loopAnswers (smartSearch (text ['/','r']))) R l R')
    {n : Nat} (hR : R = [around n]) : ∃ m, R' = [around m] := by
  induction h generalizing n with
  | start R => exact ⟨n,hR⟩
  | next _ ih =>
    obtain ⟨rfl,rfl⟩ := List.cons.inj hR
    refine @ih (n+1) ?_
    rw [loop_kids,around_succ]
    rfl

end Loop

/-- "/r/l" leads to the root, is followed, and the search does not end. -/
theorem smartSearch_loop :
    LeadsBack loopPlace (text ['/','r']) (text ['/','r','/','l']) ∧
    DirIterator.efdL loopAnswers (text ['/','r','/','l']) = .L ∧
    visited loopAnswers (smartSearch (text ['/','r'])) (text ['/','r','/','l']) = true ∧
    ¬ ∃ items, Iterates loopAnswers (createIterator loopAnswers (smartSearch (text ['/','r']))) items := by
  have hone : spelled (text ['/','r']) (around 1) = text ['/','r','/','l'] := by decide
  have hzero : spelled (text ['/','r']) (around 0) = text ['/','r'] := by decide
  have hroot := loopPlace_around 0
  have hlink := loopPlace_around 1
  have hopen := loop_opendir 0
  rw [hzero] at hroot hopen
  rw [hone] at hlink
  refine ⟨⟨text ['/','r'],[text ['r']],[text ['r']],⟨List.prefix_rfl,text ['l'],rfl⟩,hlink,hroot,
    List.prefix_rfl⟩,hone ▸ loop_efdL 0,hone ▸ loop_visited 0,?_⟩
  rintro ⟨items,steps,it',hruns,hend,_⟩
  have hstack : Stacked (smartSearch (text ['/','r']))
      (createIterator loopAnswers (smartSearch (text ['/','r']))) [around 1] := by
    have hfirst := @stacked_createIterator loopAnswers (smartSearch (text ['/','r'])) (by decide) _ hopen
    have hkids := loop_kids 0
    rw [around,List.replicate_zero] at hkids
    rwa [hkids] at hfirst
  obtain ⟨l,R',hvisits,hleft,_⟩ := hruns.visits hstack (by simp [around])
  obtain ⟨m,rfl⟩ := loop_visits hvisits rfl
  rw [DirIterator.next,hleft.paths] at hend
  cases hend

end RootHelper
