import Mathlib.Data.List.Sort
import RootHelper.NamedTrees
import RootHelper.Posix.Answers
import RootHelper.Sequences.Preorder

/-!
The directory iterator with all its modes: two stacks, of paths and of names, and what `next` leaves in
the fields that are read after it. Its turns are the steps of a search of the tree the answers show.
-/

set_option autoImplicit false

namespace RootHelper
open Posix Preorder

namespace DirIterator

inductive IterationMode where
  | FULL | RELATIVE_WITHOUT_BASE | RELATIVE_INCL_BASE
  deriving DecidableEq, Repr

inductive ListingMode where
  | PLAIN | RECURSIVE | RECURSIVE_FOLLOW_SYMLINKS | SMART_SYMLINK_RESOLUTION
  deriving DecidableEq, Repr

end DirIterator

open DirIterator (IterationMode ListingMode)

/-- What an iterator is made with. -/
structure DirOptions where
  dir : Str
  mode : DirIterator.IterationMode
  provideFilenames : Bool
  recursiveListing : DirIterator.ListingMode
  sortCurrentLevelByName : Bool
  /-- Whether a name matches the filter, if one is set. -/
  filterMatch : Name → Bool

/-- The tops of both stacks are first. -/
structure DirIterator extends DirOptions where
  S : List Str
  NamesOnly : List Name
  rootLen : Nat
  current : Str
  currentName : Name
  currentEfd : CurrentEfd
  /-- Whether `error` is set. -/
  error : Bool

namespace DirIterator

section Model

variable (a : Answers)

def efdL (path : Str) : CurrentEfd :=
  match a.lstat path with
  | none => .none
  | some st =>
    match st.kind with
    | .link =>
      match a.stat path with
      | none => .none
      | some st => if st.kind = .dir then .L else .file
    | .dir => .d
    | .file => .file

/-- The iterator's own; a path without a slash is kept. -/
def getParentDir (child : Str) : Str := child.take ((lastSlash child).getD child.length)

def smartVisitSymlink (dir link : Str) (efdL : CurrentEfd) : Bool :=
  match efdL with
  | .d => true
  | .L =>
    match a.readlink link with
    | none => false
    | some text =>
      let target := text.take 65536
      !target.isPrefixOf link && !target.isPrefixOf dir
  | _ => false

/-- Whether `next` opens the directory it has come to. -/
def visited (o : DirOptions) (path : Str) : Bool :=
  let efd := efdL a path
  match o.recursiveListing with
  | .PLAIN => false
  | .RECURSIVE => efd = .d
  | .RECURSIVE_FOLLOW_SYMLINKS => efd = .d ∨ efd = .L
  | .SMART_SYMLINK_RESOLUTION => (efd = .d ∨ efd = .L) ∧ smartVisitSymlink a o.dir path efd

def currentLevel (o : DirOptions) (names : List Name) (current : Str) : List (Str × Name) :=
  let level := (names.filter o.filterMatch).map fun d_name => (current ++ slash :: d_name,d_name)
  if o.sortCurrentLevelByName then level.insertionSort fun x y => x.2 ≤ y.2 else level

def listOnStack (it : DirIterator) (names : List Name) (current : Str) : DirIterator :=
  let level := currentLevel it.toDirOptions names current
  { it with
    S := (level.map Prod.fst).reverse ++ it.S
    NamesOnly :=
      if it.provideFilenames then (level.map Prod.snd).reverse ++ it.NamesOnly else it.NamesOnly
    currentEfd := if level = [] then .empty else it.currentEfd }

def rootLenOf (o : DirOptions) : Nat :=
  match o.mode with
  | .RELATIVE_INCL_BASE => (getParentDir o.dir).length + 1
  | .RELATIVE_WITHOUT_BASE => o.dir.length + 1
  | .FULL => 0

/-- With an error there is nothing on the stacks. -/
def createIterator (o : DirOptions) : DirIterator :=
  let it : DirIterator := ⟨o,[],[],rootLenOf o,[],[],.none,false⟩
  if ¬ absolute o.dir then { it with error := true }
  else
    match a.opendir o.dir with
    | none => { it with error := true }
    | some names => it.listOnStack names o.dir

def next (it : DirIterator) : Option DirIterator :=
  match it.S with
  | [] => none
  | path :: S =>
    let popped := { it with
      S := S
      NamesOnly := if it.provideFilenames then it.NamesOnly.tail else it.NamesOnly
      currentName := if it.provideFilenames then it.NamesOnly.headD [] else it.currentName
      currentEfd := efdL a path }
    let listed :=
      if visited a it.toDirOptions path then
        match a.opendir path with
        | none => popped
        | some names => popped.listOnStack names path
      else popped
    let current := match it.mode with
      | .FULL => path
      | .RELATIVE_WITHOUT_BASE => path.drop it.rootLen
      | .RELATIVE_INCL_BASE => path.drop it.rootLen
    some { listed with current := current }

/-- `next` before it looks at the path it has taken. -/
def popped (it : DirIterator) (path : Str) (S : List Str) : DirIterator :=
  { it with
    S := S
    NamesOnly := if it.provideFilenames then it.NamesOnly.tail else it.NamesOnly
    currentName := if it.provideFilenames then it.NamesOnly.headD [] else it.currentName
    currentEfd := efdL a path }

theorem next_cons {it : DirIterator} {path : Str} {S : List Str} (hS : it.S = path :: S) :
    it.next a = some {
      (if visited a it.toDirOptions path then
        (a.opendir path).elim (it.popped a path S) fun names =>
          (it.popped a path S).listOnStack names path
      else it.popped a path S) with
      current := if it.mode = .FULL then path else path.drop it.rootLen } := by
  rw [next,hS]
  simp only [popped]
  cases hmode : it.mode <;> cases a.opendir path <;> rfl

/-- What can be read after `next`. -/
def handed (it : DirIterator) : Current := ⟨it.current,it.currentName,it.currentEfd⟩

/-- `while (it.next())`, whose body may stop it. -/
def whileNext {m : Type → Type} [Monad m] {β : Type} (outOfTurns : m β) (body : Current → β → m β) :
    Nat → DirIterator → β → m β
  | 0, _, _ => outOfTurns
  | turns+1, it, b =>
    match it.next a with
    | none => pure b
    | some it => do
      let b ← body it.handed b
      whileNext outOfTurns body turns it b

/-- Turns one after the other, each with the path it has taken off the stack. -/
inductive Runs : DirIterator → List (Str × Current) → DirIterator → Prop
  | start (it : DirIterator) : Runs it [] it
  | next {it it' it'' : DirIterator} {path : Str} {S : List Str} {steps : List (Str × Current)} :
      it.S = path :: S → it.next a = some it' → Runs it' steps it'' →
      Runs it ((path,it'.handed) :: steps) it''

def Iterates (it : DirIterator) (items : List Current) : Prop :=
  ∃ steps it', Runs a it steps it' ∧ it'.next a = none ∧ items = steps.map Prod.snd

end Model

theorem efdL_d {a : Answers} {path : Str} :
    efdL a path = .d ↔ ∃ st, a.lstat path = some st ∧ st.kind = .dir := by
  unfold efdL
  cases a.lstat path with
  | none => simp
  | some st =>
    cases hk : st.kind with
    | dir => simp [hk]
    | file => simp [hk]
    | link =>
      cases a.stat path with
      | none => simp [hk]
      | some st' =>
        by_cases hd : st'.kind = .dir <;> simp [hk,hd]

theorem efdL_L {a : Answers} {path : Str} : efdL a path = .L ↔
    (∃ st, a.lstat path = some st ∧ st.kind = .link) ∧ ∃ st, a.stat path = some st ∧ st.kind = .dir := by
  unfold efdL
  cases a.lstat path with
  | none => simp
  | some st =>
    cases hk : st.kind with
    | dir => simp [hk]
    | file => simp [hk]
    | link =>
      cases a.stat path with
      | none => simp [hk]
      | some st' =>
        by_cases hd : st'.kind = .dir <;> simp [hk,hd]

theorem efdL_ne_empty (a : Answers) (path : Str) : efdL a path ≠ .empty := by
  unfold efdL
  split
  · simp
  · split
    · split
      · simp
      · split_ifs <;> simp
    · simp
    · simp

section Tree

variable (a : Answers) (o : DirOptions)

/-- The names that are put on the stack, in this order. -/
def pushed (names : List Name) : List Name :=
  if o.sortCurrentLevelByName then (names.filter o.filterMatch).insertionSort (· ≤ ·)
  else names.filter o.filterMatch

/-- What comes off the stack behind a directory. -/
def kids (rel : Path) : List Name :=
  if rel = [] ∨ visited a o (spelled o.dir rel) then
    ((a.opendir (spelled o.dir rel)).elim [] (pushed o)).reverse
  else []

def pathShown (rel : Path) : Str :=
  match o.mode with
  | .FULL => spelled o.dir rel
  | .RELATIVE_WITHOUT_BASE => (spelled o.dir rel).drop (rootLenOf o)
  | .RELATIVE_INCL_BASE => (spelled o.dir rel).drop (rootLenOf o)

def efdAfter (rel : Path) : CurrentEfd :=
  if visited a o (spelled o.dir rel) ∧ (a.opendir (spelled o.dir rel)).map (pushed o) = some [] then .empty
  else efdL a (spelled o.dir rel)

def itemOf (rel : Path) : Current where
  current := pathShown o rel
  currentName := if o.provideFilenames then rel.getLastD [] else []
  currentEfd := efdAfter a o rel

/-- The stacks hold the paths and the names of `R`. -/
structure Stacked (it : DirIterator) (R : List Path) : Prop where
  options : it.toDirOptions = o
  rootLen : it.rootLen = rootLenOf o
  paths : it.S = R.map (spelled o.dir)
  names : it.NamesOnly = if o.provideFilenames then R.map fun rel => rel.getLastD [] else []
  unnamed : o.provideFilenames = false → it.currentName = []

end Tree

section Turns

variable {a : Answers} {o : DirOptions} {it : DirIterator} {rel : Path} {R R' : List Path}

theorem pathShown_eq_drop (o : DirOptions) : pathShown o rel = (spelled o.dir rel).drop (rootLenOf o) := by
  unfold pathShown
  split
  · rename_i hmode
    rw [rootLenOf,hmode]
    rfl
  · rfl
  · rfl

theorem currentLevel_eq (names : List Name) (current : Str) :
    currentLevel o names current = (pushed o names).map fun c => (current ++ slash :: c,c) := by
  unfold currentLevel pushed
  split_ifs
  · exact (List.map_insertionSort (fun x y : Name => x ≤ y) (fun x y : Str × Name => x.2 ≤ y.2) _ _
      fun _ _ _ _ => Iff.rfl).symm
  · rfl

theorem nodup_kids {fs : FileSystem} {place : Str → Option Path} (h : a.Shows fs place) :
    (kids a o rel).Nodup := by
  rw [kids]
  split_ifs
  · cases hopen : a.opendir (spelled o.dir rel) with
    | none => simp
    | some names =>
      have hnodup := (h.names hopen).1.filter o.filterMatch
      simp only [Option.elim,List.nodup_reverse,pushed]
      split_ifs
      · exact (List.perm_insertionSort _ _).nodup_iff.mpr hnodup
      · exact hnodup
  · exact List.nodup_nil

theorem Stacked.listOnStack (h : Stacked o it R) (names : List Name) (rel : Path) :
    Stacked o (it.listOnStack names (spelled o.dir rel))
      ((pushed o names).reverse.map (fun c => rel ++ [c]) ++ R) := by
  obtain ⟨rfl,hroot,hpaths,hnames,hunnamed⟩ := h
  refine ⟨rfl,hroot,?_,?_,hunnamed⟩
  · simp only [DirIterator.listOnStack,currentLevel_eq,hpaths,List.map_map,List.map_append,
      List.map_reverse]
    congr 2
    exact List.map_congr_left fun c _ => (spelled_concat it.dir rel c).symm
  · simp only [DirIterator.listOnStack,currentLevel_eq,hnames,List.map_map]
    split_ifs
    · simp [Function.comp_def]
    · rfl

theorem shallow_plain (hplain : o.recursiveListing = .PLAIN) : Shallow (kids a o) 1 [] := by
  intro rel hrel
  rcases rel with _ | ⟨c,_ | ⟨d,rel⟩⟩
  · simp
  · simp
  · have hd := hrel.2.1
    rw [kids,if_neg (by simp [visited,hplain])] at hd
    simp at hd

theorem stacked_createIterator (habs : absolute o.dir) {names : List Name}
    (hopen : a.opendir o.dir = some names) :
    Stacked o (createIterator a o) ((kids a o []).map fun c => [] ++ [c]) := by
  have hroot := spelled_nil o.dir
  have hfirst : Stacked o ⟨o,[],[],rootLenOf o,[],[],.none,false⟩ [] :=
    ⟨rfl,rfl,rfl,by simp,fun _ => rfl⟩
  have hlist := hfirst.listOnStack names []
  rw [hroot,List.append_nil] at hlist
  have hkids : kids a o [] = (pushed o names).reverse := by
    rw [kids,if_pos (.inl rfl),hroot,hopen]
    rfl
  rw [createIterator,if_neg (not_not.mpr habs),hopen,hkids]
  exact hlist

theorem createIterator_unopened (h : ¬ (absolute o.dir ∧ (a.opendir o.dir).isSome)) :
    (createIterator a o).S = [] := by
  unfold createIterator
  split_ifs with habs
  · have hnone : a.opendir o.dir = none := by
      rw [← Option.not_isSome_iff_eq_none]
      exact fun hsome => h ⟨habs,hsome⟩
    simp only [hnone]
  · rfl

theorem Stacked.next (h : Stacked o it (rel :: R)) (hrel : rel ≠ []) :
    ∃ it', it.next a = some it' ∧ it'.handed = itemOf a o rel ∧
      Stacked o it' ((kids a o rel).map (fun c => rel ++ [c]) ++ R) := by
  obtain ⟨rfl,hroot,hpaths,hnames,hunnamed⟩ := h
  obtain ⟨popped,hpopped⟩ : ∃ popped : DirIterator,
      popped = it.popped a (spelled it.dir rel) (R.map (spelled it.dir)) := ⟨_,rfl⟩
  have hname : popped.currentName = if it.provideFilenames then rel.getLastD [] else [] := by
    subst hpopped
    simp only [DirIterator.popped,hnames]
    split_ifs with hp
    · rfl
    · exact hunnamed (by simpa using hp)
  have hefd : popped.currentEfd = efdL a (spelled it.dir rel) := by rw [hpopped]; rfl
  have hholds : Stacked it.toDirOptions popped R := by
    subst hpopped
    refine ⟨rfl,hroot,rfl,?_,fun hp => ?_⟩
    · simp only [DirIterator.popped,hnames]
      split_ifs <;> rfl
    · simp only [DirIterator.popped,hp,Bool.false_eq_true,if_false]
      exact hunnamed hp
  have hshown : pathShown it.toDirOptions rel =
      if it.mode = .FULL then spelled it.dir rel else (spelled it.dir rel).drop it.rootLen := by
    rw [hroot]
    unfold pathShown
    split <;> simp_all
  have hnext := next_cons a hpaths
  rw [← hpopped,← hshown] at hnext
  have hdone : ∀ listed : DirIterator,
      it.next a = some { listed with current := pathShown it.toDirOptions rel } →
      Stacked it.toDirOptions listed ((kids a it.toDirOptions rel).map (fun c => rel ++ [c]) ++ R) →
      listed.currentName = popped.currentName → listed.currentEfd = efdAfter a it.toDirOptions rel →
      ∃ it', it.next a = some it' ∧ it'.handed = itemOf a it.toDirOptions rel ∧
        Stacked it.toDirOptions it' ((kids a it.toDirOptions rel).map (fun c => rel ++ [c]) ++ R) := by
    intro listed hit hlisted hn he
    refine ⟨_,hit,?_,⟨hlisted.options,hlisted.rootLen,hlisted.paths,hlisted.names,hlisted.unnamed⟩⟩
    rw [handed,itemOf]
    simp only [hn,hname,he]
  by_cases hvisited : visited a it.toDirOptions (spelled it.dir rel)
  · rw [if_pos hvisited] at hnext
    cases hopen : a.opendir (spelled it.dir rel) with
    | none =>
      rw [hopen] at hnext
      refine hdone popped hnext ?_ rfl ?_
      · rw [kids,hopen]
        simpa using hholds
      · rw [hefd,efdAfter,hopen]
        simp
    | some names =>
      rw [hopen] at hnext
      refine hdone _ hnext ?_ rfl ?_
      · rw [kids,if_pos (.inr hvisited),hopen]
        exact hholds.listOnStack names rel
      · have hoptions := hholds.options
        simp only [DirIterator.listOnStack,currentLevel_eq,hefd,efdAfter,hopen,hvisited,hoptions]
        simp
  · rw [if_neg hvisited] at hnext
    refine hdone popped hnext ?_ rfl ?_
    · rw [kids,if_neg (not_or.mpr ⟨hrel,hvisited⟩)]
      exact hholds
    · rw [hefd,efdAfter,if_neg (fun h => hvisited h.1)]

theorem next_nil (h : Stacked o it []) : it.next a = none := by
  rw [next,h.paths]
  rfl

theorem Stacked.runs {l : List Path} (h : Stacked o it R) (hR : ∀ rel ∈ R, rel ≠ [])
    (hl : Visits (kids a o) R l R') :
    ∃ it', Runs a it (l.map fun rel => (spelled o.dir rel,itemOf a o rel)) it' ∧ Stacked o it' R' := by
  induction hl generalizing it with
  | start R => exact ⟨it,.start it,h⟩
  | @next rel R l R' _ ih =>
    obtain ⟨it',hnext,hitem,hholds⟩ := h.next (hR rel List.mem_cons_self)
    obtain ⟨it'',hruns,hend⟩ := ih hholds fun rel' hrel' => by
      rcases List.mem_append.mp hrel' with hrel' | hrel'
      · obtain ⟨c,_,rfl⟩ := List.mem_map.mp hrel'
        simp
      · exact hR rel' (List.mem_cons_of_mem rel hrel')
    refine ⟨it'',?_,hend⟩
    rw [List.map_cons,← hitem]
    exact .next h.paths hnext hruns

theorem Runs.visits {it' : DirIterator} {steps : List (Str × Current)} (hruns : Runs a it steps it')
    (h : Stacked o it R) (hR : ∀ rel ∈ R, rel ≠ []) :
    ∃ l R', Visits (kids a o) R l R' ∧ Stacked o it' R' ∧
      steps = l.map fun rel => (spelled o.dir rel,itemOf a o rel) := by
  induction hruns generalizing R with
  | start it => exact ⟨[],R,.start R,h,rfl⟩
  | @next it it' it'' path S steps hS hnext _ ih =>
    cases R with
    | nil =>
      have hnil := h.paths
      rw [hS] at hnil
      cases hnil
    | cons rel R =>
      have hpath := h.paths
      rw [hS,List.map_cons] at hpath
      obtain ⟨rfl,_⟩ := List.cons.inj hpath
      obtain ⟨it₁,hnext₁,hitem,hholds⟩ := h.next (hR rel List.mem_cons_self)
      obtain rfl := Option.some.inj (hnext.symm.trans hnext₁)
      obtain ⟨l,R',hvisits,hend,rfl⟩ := ih hholds fun rel' hrel' => by
        rcases List.mem_append.mp hrel' with hrel' | hrel'
        · obtain ⟨c,_,rfl⟩ := List.mem_map.mp hrel'
          simp
        · exact hR rel' (List.mem_cons_of_mem rel hrel')
      exact ⟨rel :: l,R',.next hvisits,hend,by rw [List.map_cons,← hitem]⟩

theorem iterates_below {n : Nat} (habs : absolute o.dir) {names : List Name}
    (hopen : a.opendir o.dir = some names) (hdepth : Shallow (kids a o) n []) :
    Iterates a (createIterator a o) ((below (kids a o) n []).map (itemOf a o)) := by
  obtain ⟨it',hruns,hend⟩ := (stacked_createIterator habs hopen).runs (fun rel hrel => by
    obtain ⟨c,_,rfl⟩ := List.mem_map.mp hrel
    simp) (visits_below hdepth)
  exact ⟨_,it',hruns,next_nil hend,by simp [List.map_map,Function.comp_def]⟩

theorem Iterates.loop {m : Type → Type} [Monad m] [LawfulMonad m] {β : Type} {outOfTurns : m β}
    {body : Current → β → m β} {items : List Current} {turns : Nat} {b : β} (h : Iterates a it items)
    (hturns : items.length < turns) :
    whileNext a outOfTurns body turns it b = items.foldlM (fun b i => body i b) b := by
  obtain ⟨steps,it',hruns,hend,rfl⟩ := h
  induction hruns generalizing turns b with
  | start it =>
    cases turns with
    | zero => simp at hturns
    | succ turns =>
      rw [whileNext,hend]
      rfl
  | next _ hnext _ ih =>
    cases turns with
    | zero => simp at hturns
    | succ turns =>
      rw [whileNext,hnext,List.map_cons,List.foldlM_cons]
      refine bind_congr fun b => ih hend ?_
      simpa using hturns

end Turns

end DirIterator
end RootHelper
