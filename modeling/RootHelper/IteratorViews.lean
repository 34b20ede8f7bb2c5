import RootHelper.FolderTotals

/-!
The plain iterator over a view goes as the one with all modes does over the answers of that view, so a
loop makes the same of either. The statistics a client asks for are thus the counts of an iteration.
-/

set_option autoImplicit false

namespace RootHelper
open Posix Preorder

def IterationMode.wide : IterationMode → DirIterator.IterationMode
  | .FULL => .FULL
  | .RELATIVE_WITHOUT_BASE => .RELATIVE_WITHOUT_BASE

def ListingMode.wide : ListingMode → DirIterator.ListingMode
  | .PLAIN => .PLAIN
  | .RECURSIVE => .RECURSIVE
  | .RECURSIVE_FOLLOW_SYMLINKS => .RECURSIVE_FOLLOW_SYMLINKS

namespace readdirIterator

variable {v : View} {it : readdirIterator} {dirIt : DirIterator} {path : Str}

/-- The same paths on both stacks, and the same options. -/
structure Agrees (it : readdirIterator) (dirIt : DirIterator) : Prop where
  paths : dirIt.S = it.S.map Prod.fst
  names : dirIt.NamesOnly = if dirIt.provideFilenames then it.S.map Prod.snd else []
  rootLen : dirIt.rootLen = it.rootLen
  full : dirIt.mode = .FULL → it.rootLen = 0
  listing : dirIt.recursiveListing = it.recursiveListing.wide
  sorted : dirIt.sortCurrentLevelByName = it.sortCurrentLevelByName
  filter : dirIt.filterMatch = filterMatch it.filterHidden

theorem efdL_answers : DirIterator.efdL v.answers path = efdL v path := rfl

theorem Agrees.visited (h : Agrees it dirIt) :
    DirIterator.visited v.answers dirIt.toDirOptions path ↔ it.descends (efdL v path) := by
  unfold DirIterator.visited descends
  rw [h.listing,efdL_answers]
  cases it.recursiveListing with
  | PLAIN => simp [ListingMode.wide]
  | RECURSIVE => simp [ListingMode.wide]
  | RECURSIVE_FOLLOW_SYMLINKS => simp [ListingMode.wide]

theorem Agrees.level (h : Agrees it dirIt) (names : List Name) :
    it.level path names = (DirIterator.currentLevel dirIt.toDirOptions names path).reverse := by
  unfold readdirIterator.level DirIterator.currentLevel
  rw [h.sorted,h.filter]
  split_ifs <;> rfl

theorem Agrees.listOnStack (h : Agrees it dirIt) (names : List Name) (path : Str) :
    Agrees { it with S := it.level path names ++ it.S } (dirIt.listOnStack names path) := by
  refine ⟨?_,?_,h.rootLen,h.full,h.listing,h.sorted,h.filter⟩
  · simp only [DirIterator.listOnStack,h.level names,h.paths,List.map_append,List.map_reverse]
  · simp only [DirIterator.listOnStack,h.level names,h.names,List.map_append,List.map_reverse]
    split_ifs <;> rfl

/-- What is handed out plays no part. -/
theorem Agrees.handing (h : Agrees it dirIt) (current : Str) :
    Agrees it { dirIt with current := current } :=
  ⟨h.paths,h.names,h.rootLen,h.full,h.listing,h.sorted,h.filter⟩

theorem Agrees.popped {e : Str × Name} {S : List (Str × Name)} (h : Agrees it dirIt)
    (hS : it.S = e :: S) (a : Answers) :
    Agrees { it with S := S } (dirIt.popped a e.1 (S.map Prod.fst)) := by
  refine ⟨rfl,?_,h.rootLen,h.full,h.listing,h.sorted,h.filter⟩
  simp only [DirIterator.popped,h.names,hS]
  split_ifs <;> rfl

/-- A turn of both. -/
theorem Agrees.next (h : Agrees it dirIt) : it.next v = none ∧ dirIt.next v.answers = none ∨
    ∃ i it' dirIt', it.next v = some (i,it') ∧ dirIt.next v.answers = some dirIt' ∧ Agrees it' dirIt' ∧
      dirIt'.provideFilenames = dirIt.provideFilenames ∧
      dirIt'.handed = { i with
        currentName := if dirIt.provideFilenames then i.currentName else dirIt.currentName } := by
  cases hS : it.S with
  | nil =>
    refine .inl ⟨by rw [readdirIterator.next,hS],?_⟩
    rw [DirIterator.next,h.paths,hS]
    rfl
  | cons e S =>
    have hpaths : dirIt.S = e.1 :: S.map Prod.fst := by rw [h.paths,hS,List.map_cons]
    have hshown : e.1.drop it.rootLen = if dirIt.mode = .FULL then e.1 else e.1.drop dirIt.rootLen := by
      split_ifs with hmode
      · rw [h.full hmode,List.drop_zero]
      · rw [h.rootLen]
    obtain ⟨popped,hpopped⟩ : ∃ popped : DirIterator,
        popped = dirIt.popped v.answers e.1 (S.map Prod.fst) := ⟨_,rfl⟩
    have hname : popped.currentName = if dirIt.provideFilenames then e.2 else dirIt.currentName := by
      subst hpopped
      simp only [DirIterator.popped]
      split_ifs with hprovide
      · rw [h.names,if_pos hprovide,hS]
        rfl
      · rfl
    have hefd : popped.currentEfd = efdL v e.1 := by rw [hpopped]; rfl
    have hagrees : Agrees { it with S := S } popped := hpopped ▸ h.popped hS v.answers
    have hprovide : popped.provideFilenames = dirIt.provideFilenames := by rw [hpopped]; rfl
    have hnext := DirIterator.next_cons v.answers hpaths
    rw [← hpopped,← hshown] at hnext
    rw [readdirIterator.next,hS,hnext]
    by_cases hdesc : it.descends (efdL v e.1) = true
    · rw [if_pos (h.visited.mpr hdesc)]
      have hanswer : v.answers.opendir e.1 = v.opendir e.1 := rfl
      rw [hanswer]
      cases hopen : v.opendir e.1 with
      | none =>
        have hopened : it.opened v e.1 = none := by rw [opened,if_pos hdesc,hopen]; rfl
        refine .inr ⟨_,_,_,rfl,rfl,?_,hprovide,?_⟩
        · rw [hopened]
          exact hagrees.handing _
        · simp only [DirIterator.handed,Option.elim_none,item,hopened,hname,hefd,reduceCtorEq,if_false]
      | some names =>
        have hopened : it.opened v e.1 = some (it.level e.1 names) := by
          rw [opened,if_pos hdesc,hopen]
          rfl
        refine .inr ⟨_,_,_,rfl,rfl,?_,hprovide,?_⟩
        · rw [hopened]
          exact (hagrees.listOnStack names e.1).handing _
        · have hlevel : it.level e.1 names =
              (DirIterator.currentLevel popped.toDirOptions names e.1).reverse := hagrees.level names
          simp only [DirIterator.handed,Option.elim_some,DirIterator.listOnStack,item,hopened,hname,hefd,hlevel,
            Option.some.injEq,List.reverse_eq_nil_iff]
    · rw [if_neg (mt h.visited.mp hdesc)]
      have hopened : it.opened v e.1 = none := by rw [opened,if_neg hdesc]
      refine .inr ⟨_,_,_,rfl,rfl,?_,hprovide,?_⟩
      · rw [hopened]
        exact hagrees.handing _
      · simp only [DirIterator.handed,item,hopened,hname,hefd,reduceCtorEq,if_false]

/-- A loop makes the same of both, whose body reads the name only where one is handed out. -/
theorem Agrees.whileNext {β : Type} {body : Current → β → β} (h : Agrees it dirIt)
    (hname : dirIt.provideFilenames = false → ∀ i name b, body { i with currentName := name } b =
      body i b) (turns : Nat) (b : β) :
    dirIt.whileNext v.answers none (fun i b => pure (body i b)) turns b = it.whileNext v body turns b := by
  induction turns generalizing it dirIt b with
  | zero => rfl
  | succ turns ih =>
    rw [DirIterator.whileNext,readdirIterator.whileNext]
    rcases h.next (v := v) with ⟨hend,hend'⟩ | ⟨i,it',dirIt',hnext,hnext',hagrees,hprovide,hitem⟩
    · rw [hend,hend']
      rfl
    · have hbody : body dirIt'.handed b = body i b := by
        rw [hitem]
        split_ifs with hnames
        · rfl
        · exact hname (by simpa using hnames) i _ b
      rw [hnext,hnext']
      simp only [pure_bind,hbody]
      exact ih hagrees (by rwa [hprovide]) _

/-- What the iterator with all modes is made with for a plain one. -/
def options (dir : Str) (mode : IterationMode) (provideFilenames : Bool)
    (recursiveListing : ListingMode) (sortCurrentLevelByName filterHidden : Bool) : DirOptions :=
  ⟨dir,mode.wide,provideFilenames,recursiveListing.wide,sortCurrentLevelByName,filterMatch filterHidden⟩

section Created

variable {dir : Str} {mode : IterationMode} {provideFilenames : Bool} {recursiveListing : ListingMode}
  {sortByName hidden : Bool}

variable (provideFilenames) in
theorem createIterator_agrees
    (h : createIterator v dir mode recursiveListing sortByName hidden = some it) :
    (DirIterator.createIterator v.answers
      (options dir mode provideFilenames recursiveListing sortByName hidden)).error = false ∧
    Agrees it (DirIterator.createIterator v.answers
      (options dir mode provideFilenames recursiveListing sortByName hidden)) := by
  obtain ⟨habs,names,hopen,rfl⟩ := createIterator_eq_some h
  have hopen' : v.answers.opendir dir = some names := hopen
  have hfirst : Agrees ⟨if mode = .FULL then 0 else dir.length + 1,recursiveListing,sortByName,hidden,[]⟩
      ⟨options dir mode provideFilenames recursiveListing sortByName hidden,[],[],
        DirIterator.rootLenOf (options dir mode provideFilenames recursiveListing sortByName hidden),
        [],[],.none,false⟩ := by
    refine ⟨rfl,by simp,?_,?_,rfl,rfl,rfl⟩
    · cases mode <;> rfl
    · cases mode with
      | FULL => exact fun _ => rfl
      | RELATIVE_WITHOUT_BASE => exact fun hfull => by cases hfull
  have hlisted := hfirst.listOnStack names dir
  rw [List.append_nil] at hlisted
  simp only [DirIterator.createIterator,options,habs,not_true,if_false,hopen']
  exact ⟨rfl,hlisted⟩

theorem createIterator_error
    (h : createIterator v dir mode recursiveListing sortByName hidden = none) :
    (DirIterator.createIterator v.answers
      (options dir mode provideFilenames recursiveListing sortByName hidden)).error = true := by
  by_cases habs : absolute dir
  · rw [Totals.createIterator_error habs]
    change v.opendir dir = none
    cases hopen : v.opendir dir with
    | none => rfl
    | some names =>
      have hsome : (createIterator v dir mode recursiveListing sortByName hidden).isSome :=
        createIterator_isSome.mpr ⟨habs,names,hopen⟩
      rw [h] at hsome
      cases hsome
  · simp only [DirIterator.createIterator,options,habs,not_false_eq_true,if_true]

end Created

end readdirIterator

namespace Totals

variable {v : View} {path : Str} {resp : folderStats_resp_t}

theorem followed_options (path : Str) : followed path =
    readdirIterator.options path .FULL false .RECURSIVE_FOLLOW_SYMLINKS false false := rfl

/-- The letter in front of the permissions is that of the kind. -/
theorem existsIsFileIsDir_answers (filepath : Str) : existsIsFileIsDir_ v.answers filepath =
    ((Metadata.existsIsFileIsDir_ v filepath).1,
      (Metadata.existsIsFileIsDir_ v filepath).2.elim 0 fun st => st.size) := by
  have hanswer : v.answers.lstat filepath = v.lstat filepath := rfl
  unfold existsIsFileIsDir_ Metadata.existsIsFileIsDir_ Metadata.osStat
  rw [hanswer]
  cases v.lstat filepath with
  | none => rfl
  | some st =>
    have hletter : (Metadata.getPermissions v filepath st).head? = some 100 ↔ st.kind = .dir := by
      cases hkind : st.kind with
      | dir => simp [Metadata.getPermissions,Metadata.permissionWrites,hkind]
      | file => simp [Metadata.getPermissions,Metadata.permissionWrites,hkind]
      | link =>
        simp only [Metadata.getPermissions,Metadata.permissionWrites,hkind]
        split_ifs <;> simp
    simp only [Option.map_some,Option.elim_some,hletter]

/-- What the statistics are made of is what the iteration counts. -/
theorem totals_agree {turns : Nat} (hturns : ∀ it ∈ readdirIterator.createIterator v path .FULL
      .RECURSIVE_FOLLOW_SYMLINKS false false, (it.entries v).length < turns) :
    accumulateTotalFilesAndFoldersCount v.answers turns path resp =
      some (RootHelper.accumulateTotalFilesAndFoldersCount v path resp) := by
  rw [accumulateTotalFilesAndFoldersCount,RootHelper.accumulateTotalFilesAndFoldersCount,
    followed_options]
  simp only [forEach]
  cases hit : readdirIterator.createIterator v path .FULL .RECURSIVE_FOLLOW_SYMLINKS false false with
  | none => rw [readdirIterator.createIterator_error hit,if_pos rfl]
  | some it =>
    obtain ⟨herror,hagrees⟩ := readdirIterator.createIterator_agrees false hit
    rw [herror,if_neg Bool.false_ne_true]
    rw [hagrees.whileNext (fun _ _ _ _ => rfl),readdirIterator.whileNext_eq (hturns it hit)]
    simp only [readdirIterator.loop_eq]
    refine congrArg some (List.foldl_ext _ _ _ fun b i _ => ?_)
    rw [tally,existsIsFileIsDir_answers]
    cases hefd : Metadata.existsIsFileIsDir_ v i.current with
    | mk efd st => cases efd <;> rfl

theorem length_le_spelled (root : Str) (rel : Path) : rel.length ≤ (spelled root rel).length := by
  have hnames : rel.length ≤ (rel.flatMap (slash :: ·)).length := by
    induction rel with
    | nil => exact Nat.le_refl _
    | cons c rel ih =>
      simp only [List.flatMap_cons,List.length_append,List.length_cons]
      omega
  rw [spelled,List.length_append]
  omega

/-- No path is longer than the system allows, so an iteration over a view ends. -/
theorem shallow_answers (o : DirOptions) : Shallow (DirIterator.kids v.answers o) PATH_MAX [] := by
  intro rel hrel
  rcases rel.eq_nil_or_concat with rfl | ⟨q,c,rfl⟩
  · exact Nat.zero_le _
  · rw [List.concat_eq_append] at hrel ⊢
    have hc := (leads_concat.mp hrel).2
    rw [List.nil_append,DirIterator.kids] at hc
    split_ifs at hc
    · cases hopen : v.answers.opendir (spelled o.dir q) with
      | none =>
        rw [hopen] at hc
        cases hc
      | some names =>
        have hshort := v.short _ names hopen
        have hle := length_le_spelled o.dir q
        rw [List.length_append,List.length_singleton]
        omega
    · cases hc

/-- The statistics count every node the iteration meets below a directory that can be opened. -/
theorem stats_counted (habs : absolute path) (hopen : (v.opendir path).isSome) :
    ∃ ret, RootHelper.accumulateTotalFilesAndFoldersCount v path resp = (ret,counted resp
      (total v.answers path (below (DirIterator.kids v.answers (followed path)) PATH_MAX []))) := by
  have hsome : (readdirIterator.createIterator v path .FULL .RECURSIVE_FOLLOW_SYMLINKS false
      false).isSome :=
    readdirIterator.createIterator_isSome.mpr ⟨habs,Option.isSome_iff_exists.mp hopen⟩
  obtain ⟨it,hit⟩ := Option.isSome_iff_exists.mp hsome
  -- Turns enough for both.
  obtain ⟨turns,hturns,hturns'⟩ : ∃ turns, (it.entries v).length < turns ∧
      (below (DirIterator.kids v.answers (followed path)) PATH_MAX []).length < turns :=
    ⟨_,Nat.lt_succ_of_le (Nat.le_add_right _ _),Nat.lt_succ_of_le (Nat.le_add_left _ _)⟩
  obtain ⟨ret,hret⟩ := @accumulate_eq v.answers path PATH_MAX turns resp habs hopen
    (shallow_answers (followed path)) hturns'
  rw [totals_agree fun it' hit' => Option.some.inj (hit.symm.trans hit') ▸ hturns] at hret
  exact ⟨ret,Option.some.inj hret⟩

end Totals
end RootHelper
