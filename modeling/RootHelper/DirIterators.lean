import Mathlib.Data.List.Sort
import RootHelper.Posix.View
import RootHelper.PathUtils

/-!
The iterator over a directory: a stack of full paths with their names, from which `next` takes one
at a time and puts the entries of a directory back on. What a loop over it comes to is the preorder
of the tree the calls show.
-/

set_option autoImplicit false

namespace RootHelper
open Posix

/-- How the paths are handed out. -/
inductive IterationMode where
  | FULL | RELATIVE_WITHOUT_BASE
  deriving DecidableEq, Repr

inductive ListingMode where
  | PLAIN | RECURSIVE | RECURSIVE_FOLLOW_SYMLINKS
  deriving DecidableEq, Repr

/-- 0, 1, `d`, `L` and `@`, the last for a directory without entries left after filtering. -/
inductive CurrentEfd where
  | none | file | d | L | empty
  deriving DecidableEq, Repr

/-- What an iteration hands out. -/
structure Current where
  current : Str
  currentName : Name
  currentEfd : CurrentEfd
  deriving DecidableEq, Repr

def visible : Name → Bool
  | b :: c :: rest => b ≠ dot && (c :: rest).all fun e => e ≠ 10 && e ≠ 13
  | _ => false

def filterMatch (hidden : Bool) (d_name : Name) : Bool := !hidden || visible d_name

structure readdirIterator where
  rootLen : Nat
  recursiveListing : ListingMode
  sortCurrentLevelByName : Bool
  filterHidden : Bool
  /-- The top is first; the stack of names goes along. -/
  S : List (Str × Name)
  deriving DecidableEq, Repr

namespace readdirIterator

variable (v : View)

def efdL (path : Str) : CurrentEfd :=
  match v.lstat path with
  | none => .none
  | some st =>
    match st.kind with
    | .link =>
      match v.stat path with
      | none => .none
      | some st => if st.kind = .dir then .L else .file
    | .dir => .d
    | .file => .file

/-- What `listOnStack` puts on the stack, in the order it comes off again. -/
def level (it : readdirIterator) (current : Str) (names : List Name) : List (Str × Name) :=
  let currentLevel := (names.filter (filterMatch it.filterHidden)).map fun d_name =>
    (current ++ slash :: d_name,d_name)
  if it.sortCurrentLevelByName then
    (currentLevel.insertionSort fun x y => x.2 ≤ y.2).reverse
  else currentLevel.reverse

def createIterator (dir : Str) (mode : IterationMode) (recursiveListing : ListingMode)
    (sortCurrentLevelByName filterHidden : Bool) : Option readdirIterator :=
  if ¬ absolute dir then none
  else
    match v.opendir dir with
    | none => none
    | some names =>
      let rootLen := match mode with
        | .FULL => 0
        | .RELATIVE_WITHOUT_BASE => dir.length + 1
      let it : readdirIterator := ⟨rootLen,recursiveListing,sortCurrentLevelByName,filterHidden,[]⟩
      some { it with S := it.level dir names }

/-- Whether `next` opens what it has come to. -/
def descends (it : readdirIterator) (efd : CurrentEfd) : Bool :=
  match it.recursiveListing with
  | .PLAIN => false
  | .RECURSIVE => efd = .d
  | .RECURSIVE_FOLLOW_SYMLINKS => efd = .d ∨ efd = .L

/-- The entries put on the stack for `path`, when it is one to be opened and can be. -/
def opened (it : readdirIterator) (path : Str) : Option (List (Str × Name)) :=
  if it.descends (efdL v path) then (v.opendir path).map (it.level path) else none

def item (it : readdirIterator) (e : Str × Name) : Current where
  current := e.1.drop it.rootLen
  currentName := e.2
  currentEfd := if it.opened v e.1 = some [] then .empty else efdL v e.1

def next (it : readdirIterator) : Option (Current × readdirIterator) :=
  match it.S with
  | [] => none
  | e :: S => some (it.item v e,{ it with S := (it.opened v e.1).getD [] ++ S })

/-- `while (it.next())` with what its body makes of the loop's variables; nothing if the turns are
not enough. -/
def whileNext {β : Type} (body : Current → β → β) : Nat → readdirIterator → β → Option β
  | 0, _, _ => none
  | turns+1, it, b =>
    match it.next v with
    | none => some b
    | some (i,it) => whileNext body turns it (body i b)

/-- An entry and all that is below it, down to `depth`. -/
def below (it : readdirIterator) : Nat → Str × Name → List (Str × Name)
  | 0, e => [e]
  | depth+1, e => e :: ((it.opened v e.1).getD []).flatMap (below it depth)

def deep (path : Str) : Nat := PATH_MAX - path.length

/-- All entries a loop over `it` comes to. -/
def entries (it : readdirIterator) : List (Str × Name) :=
  it.S.flatMap fun e => it.below v (deep e.1) e

/-- What a loop over `it` is handed. -/
def items (it : readdirIterator) : List Current := (it.entries v).map (it.item v)

section Loop

variable {v} {it : readdirIterator} {e : Str × Name} {depth : Nat}

theorem mem_level {current : Str} {names : List Name} : e ∈ it.level current names ↔
    ∃ c ∈ names, filterMatch it.filterHidden c ∧ e = (current ++ slash :: c,c) := by
  have hmem : ∀ l : List (Str × Name),
      e ∈ (if it.sortCurrentLevelByName then (l.insertionSort fun x y => x.2 ≤ y.2).reverse
        else l.reverse) ↔ e ∈ l := by
    intro l
    split
    · rw [List.mem_reverse,List.mem_insertionSort]
    · exact List.mem_reverse
  rw [level,hmem,List.mem_map]
  simp only [List.mem_filter,and_assoc,eq_comm]

theorem opened_eq_some {path : Str} {l : List (Str × Name)} : it.opened v path = some l ↔
    it.descends (efdL v path) ∧ ∃ names, v.opendir path = some names ∧ it.level path names = l := by
  unfold opened
  split_ifs with hd <;> simp [hd]

theorem longer_of_mem_opened {path : Str} (h : e ∈ (it.opened v path).getD []) :
    deep e.1 < deep path := by
  cases hopen : it.opened v path with
  | none => simp [hopen] at h
  | some l =>
    rw [hopen,Option.getD_some] at h
    obtain ⟨_,names,hnames,rfl⟩ := opened_eq_some.mp hopen
    obtain ⟨c,_,_,rfl⟩ := mem_level.mp h
    have hshort := v.short path names hnames
    simp only [deep,List.length_append,List.length_cons]
    omega

variable (v it) in
theorem opened_of_deep_zero {path : Str} (h : deep path = 0) : (it.opened v path).getD [] = [] := by
  rw [List.eq_nil_iff_forall_not_mem]
  intro e he
  have hlonger := longer_of_mem_opened he
  omega

theorem below_eq {m n : Nat} (hm : deep e.1 ≤ m) (hn : deep e.1 ≤ n) :
    it.below v m e = it.below v n e := by
  induction m generalizing n e with
  | zero =>
    have hnone := opened_of_deep_zero v it (Nat.le_zero.mp hm)
    cases n <;> simp [below,hnone]
  | succ m ih =>
    cases n with
    | zero => simp [below,opened_of_deep_zero v it (Nat.le_zero.mp hn)]
    | succ n =>
      rw [below,below]
      congr 1
      refine List.flatMap_congr fun e' he' => ih ?_ ?_
      · have hlonger := longer_of_mem_opened he'
        omega
      · have hlonger := longer_of_mem_opened he'
        omega

theorem below_unfold : it.below v (deep e.1) e =
    e :: ((it.opened v e.1).getD []).flatMap fun e' => it.below v (deep e'.1) e' := by
  rw [below_eq (Nat.le_refl _) (Nat.le_succ _),below]
  congr 1
  refine List.flatMap_congr fun e' he' => below_eq ?_ (Nat.le_refl _)
  exact (longer_of_mem_opened he').le

theorem below_stack {S : List (Str × Name)} :
    { it with S := S }.below v depth e = it.below v depth e := by
  induction depth generalizing e with
  | zero => rfl
  | succ depth ih =>
    rw [below,below]
    congr 1
    exact List.flatMap_congr fun e' _ => ih

/-- The places below `dir` that an iteration comes to, each with its name. -/
inductive Met (v : View) (recursiveListing : ListingMode) (filterHidden : Bool) (dir : Str) :
    Str → Name → Prop
  | entry {names : List Name} {c : Name} : v.opendir dir = some names → c ∈ names →
      filterMatch filterHidden c → Met v recursiveListing filterHidden dir (dir ++ slash :: c) c
  | deeper {path : Str} {name c : Name} {names : List Name} :
      Met v recursiveListing filterHidden dir path name →
      descends ⟨0,recursiveListing,false,false,[]⟩ (efdL v path) → v.opendir path = some names →
      c ∈ names → filterMatch filterHidden c →
      Met v recursiveListing filterHidden dir (path ++ slash :: c) c

theorem Met.opened {recursiveListing : ListingMode} {hidden : Bool} {dir path : Str} {name : Name}
    (h : Met v recursiveListing hidden dir path name) : ∃ names, v.opendir dir = some names := by
  induction h with
  | entry hopen _ _ => exact ⟨_,hopen⟩
  | deeper _ _ _ _ _ ih => exact ih

theorem Met.listed {recursiveListing : ListingMode} {hidden : Bool} {dir path : Str} {name : Name}
    (h : Met v recursiveListing hidden dir path name) :
    ∃ d names, v.opendir d = some names ∧ name ∈ names ∧ path = d ++ slash :: name := by
  cases h with
  | entry hopen hc _ => exact ⟨_,_,hopen,hc,rfl⟩
  | deeper _ _ hopen hc _ => exact ⟨_,_,hopen,hc,rfl⟩

theorem mem_opened {path : Str} : e ∈ (it.opened v path).getD [] ↔
    it.descends (efdL v path) ∧ ∃ names c, v.opendir path = some names ∧ c ∈ names ∧
      filterMatch it.filterHidden c ∧ e = (path ++ slash :: c,c) := by
  unfold opened
  split_ifs with hd
  · cases hopen : v.opendir path with
    | none => simp
    | some names => simp [hd,mem_level]
  · simp [hd]

theorem met_of_mem_below {dir : Str} (he : Met v it.recursiveListing it.filterHidden dir e.1 e.2)
    {e' : Str × Name} (h : e' ∈ it.below v depth e) :
    Met v it.recursiveListing it.filterHidden dir e'.1 e'.2 := by
  induction depth generalizing e with
  | zero =>
    rw [below,List.mem_singleton] at h
    exact h ▸ he
  | succ depth ih =>
    rw [below,List.mem_cons,List.mem_flatMap] at h
    rcases h with rfl | ⟨e'',hmem,h⟩
    · exact he
    · obtain ⟨hd,names,c,hopen,hc,hfilter,rfl⟩ := mem_opened.mp hmem
      exact ih (.deeper he hd hopen hc hfilter) h

theorem mem_below_self : e ∈ it.below v (deep e.1) e := by
  rw [below_unfold]
  exact List.mem_cons_self

theorem mem_below_trans {e' e'' : Str × Name} (h : e' ∈ it.below v depth e)
    (hmem : e'' ∈ (it.opened v e'.1).getD []) (hdepth : deep e.1 ≤ depth) :
    e'' ∈ it.below v depth e := by
  induction depth generalizing e with
  | zero =>
    rw [below,List.mem_singleton] at h
    subst h
    rw [opened_of_deep_zero v it (Nat.le_zero.mp hdepth)] at hmem
    exact absurd hmem List.not_mem_nil
  | succ depth ih =>
    rw [below,List.mem_cons,List.mem_flatMap] at h ⊢
    rcases h with rfl | ⟨d,hd,h⟩
    · refine .inr ⟨e'',hmem,?_⟩
      have hlonger := longer_of_mem_opened hmem
      rw [below_eq (n := deep e''.1) (by omega) (Nat.le_refl _)]
      exact mem_below_self
    · have hlonger := longer_of_mem_opened hd
      exact .inr ⟨d,hd,ih h (by omega)⟩

theorem createIterator_eq_some {dir : Str} {mode : IterationMode} {recursiveListing : ListingMode}
    {sortByName hidden : Bool}
    (h : createIterator v dir mode recursiveListing sortByName hidden = some it) :
    absolute dir ∧ ∃ names, v.opendir dir = some names ∧ it = {
      rootLen := if mode = .FULL then 0 else dir.length + 1
      recursiveListing := recursiveListing
      sortCurrentLevelByName := sortByName
      filterHidden := hidden
      S := level ⟨0,recursiveListing,sortByName,hidden,[]⟩ dir names } := by
  unfold createIterator at h
  split_ifs at h with habs
  cases hopen : v.opendir dir with
  | none => simp [hopen] at h
  | some names =>
    rw [hopen] at h
    refine ⟨by simpa using habs,names,rfl,(Option.some.inj h).symm.trans ?_⟩
    cases mode <;> rfl

theorem createIterator_isSome {dir : Str} {mode : IterationMode} {recursiveListing : ListingMode}
    {sortByName hidden : Bool} : (createIterator v dir mode recursiveListing sortByName hidden).isSome ↔
      absolute dir ∧ ∃ names, v.opendir dir = some names := by
  unfold createIterator
  split_ifs with habs
  · cases v.opendir dir <;> simp [habs]
  · simp [habs]

theorem mem_entries {dir : Str} {mode : IterationMode} {recursiveListing : ListingMode}
    {sortByName hidden : Bool}
    (h : createIterator v dir mode recursiveListing sortByName hidden = some it) :
    e ∈ it.entries v ↔ Met v recursiveListing hidden dir e.1 e.2 := by
  obtain ⟨_,names,hopen,hit⟩ := createIterator_eq_some h
  have hS : ∀ d, d ∈ it.S ↔ ∃ c ∈ names, filterMatch hidden c ∧ d = (dir ++ slash :: c,c) := by
    subst hit
    exact fun d => mem_level
  have hlisting : it.recursiveListing = recursiveListing := by rw [hit]
  have hfilter : it.filterHidden = hidden := by rw [hit]
  rw [entries,List.mem_flatMap]
  constructor
  · intro hmem
    obtain ⟨d,hd,hmem⟩ := hmem
    obtain ⟨c,hc,hkeep,rfl⟩ := (hS d).mp hd
    rw [← hlisting,← hfilter]
    exact met_of_mem_below (.entry hopen hc (by rw [hfilter]; exact hkeep)) hmem
  · intro hmet
    obtain ⟨path,name⟩ := e
    simp only at hmet
    induction hmet with
    | entry hopen' hc hkeep =>
      rw [hopen] at hopen'
      cases hopen'
      exact ⟨_,(hS _).mpr ⟨_,hc,hkeep,rfl⟩,mem_below_self⟩
    | deeper hmet hd hopen' hc hkeep ih =>
      obtain ⟨d,hd',hmem⟩ := ih
      refine ⟨d,hd',mem_below_trans hmem (mem_opened.mpr ⟨?_,_,_,hopen',hc,?_,rfl⟩) (Nat.le_refl _)⟩
      · rw [← hd,descends,descends,hlisting]
      · rw [hfilter]
        exact hkeep

variable (v it) in
theorem next_cases : it.next v = none ∧ it.entries v = [] ∨ ∃ e it', it.next v = some (it.item v e,it') ∧
    it.entries v = e :: it'.entries v ∧ it.items v = it.item v e :: it'.items v := by
  cases hS : it.S with
  | nil => exact .inl ⟨by simp only [next,hS],by simp only [entries,hS,List.flatMap_nil]⟩
  | cons e S =>
    obtain ⟨it',hit'⟩ : ∃ it' : readdirIterator,
        it' = { it with S := (it.opened v e.1).getD [] ++ S } := ⟨_,rfl⟩
    have hentries : it.entries v = e :: it'.entries v := by
      subst hit'
      simp only [entries,hS,List.flatMap_cons,List.flatMap_append,below_stack]
      rw [below_unfold]
      rfl
    refine .inr ⟨e,it',by simp only [next,hS,hit'],hentries,?_⟩
    rw [items,hentries,List.map_cons,items]
    subst hit'
    rfl

theorem whileNext_eq {β : Type} {body : Current → β → β} {turns : Nat} {b : β}
    (h : (it.entries v).length < turns) :
    whileNext v body turns it b = some ((it.items v).foldl (fun b i => body i b) b) := by
  induction turns generalizing it b with
  | zero => omega
  | succ turns ih =>
    rw [whileNext]
    rcases next_cases v it with ⟨hnext,hnone⟩ | ⟨e,it',hnext,hentries,hitems⟩
    · rw [hnext,items,hnone]
      rfl
    · rw [hnext,hitems,List.foldl_cons]
      refine ih ?_
      rw [hentries,List.length_cons] at h
      omega

/-- A loop over `it` with the turns it needs. -/
def loop (v : View) {β : Type} (body : Current → β → β) (it : readdirIterator) (b : β) : β :=
  (whileNext v body ((it.entries v).length + 1) it b).getD b

theorem loop_eq {β : Type} {body : Current → β → β} {b : β} :
    loop v body it b = (it.items v).foldl (fun b i => body i b) b := by
  rw [loop,whileNext_eq (Nat.lt_succ_self _),Option.getD_some]

end Loop

end readdirIterator
end RootHelper
