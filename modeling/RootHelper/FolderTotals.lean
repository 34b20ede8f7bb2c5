import Mathlib.Algebra.BigOperators.Group.List.Basic
import Mathlib.Data.UInt
import RootHelper.FolderStats
import RootHelper.LinkCycles

/-!
How much there is below a directory, counted twice: by an iteration for the statistics and for the
progress of hashing, and by a recursion for the progress of transfers. Only the iteration goes behind
links to directories.
-/

set_option autoImplicit false

namespace RootHelper
open Posix Preorder DirIterator

structure sts_sz where
  tFiles : UInt64
  tFolders : UInt64
  tSize : UInt64
  deriving DecidableEq, Repr

namespace sts_sz

@[ext] theorem ext {x y : sts_sz} (hfiles : x.tFiles = y.tFiles) (hfolders : x.tFolders = y.tFolders)
    (hsize : x.tSize = y.tSize) : x = y := by
  cases x
  cases y
  simp_all

instance : Zero sts_sz := ⟨⟨0,0,0⟩⟩

instance : Add sts_sz :=
  ⟨fun num subNum => ⟨num.tFiles + subNum.tFiles,num.tFolders + subNum.tFolders,
    num.tSize + subNum.tSize⟩⟩

@[simp] theorem zero_tFiles : (0 : sts_sz).tFiles = 0 := rfl
@[simp] theorem zero_tFolders : (0 : sts_sz).tFolders = 0 := rfl
@[simp] theorem zero_tSize : (0 : sts_sz).tSize = 0 := rfl
@[simp] theorem add_tFiles (x y : sts_sz) : (x + y).tFiles = x.tFiles + y.tFiles := rfl
@[simp] theorem add_tFolders (x y : sts_sz) : (x + y).tFolders = x.tFolders + y.tFolders := rfl
@[simp] theorem add_tSize (x y : sts_sz) : (x + y).tSize = x.tSize + y.tSize := rfl

instance : AddCommMonoid sts_sz where
  add_assoc x y z := by ext <;> simp [UInt64.add_assoc]
  zero_add x := by ext <;> simp
  add_zero x := by ext <;> simp
  add_comm x y := by ext <;> simp [UInt64.add_comm]
  nsmul := nsmulRec

end sts_sz

namespace Totals

section Model

variable (a : Answers)

/-- With the size; of the permissions `d` comes first for a directory alone. -/
def existsIsFileIsDir_ (filepath : Str) : Efd × UInt64 :=
  match a.lstat filepath with
  | none => (.none,0)
  | some osSt => (if osSt.kind = .dir then .dir else .file,osSt.size)

def followed (path : Str) : DirOptions :=
  ⟨path,.FULL,false,.RECURSIVE_FOLLOW_SYMLINKS,false,fun _ => true⟩

def listed (path : Str) : DirOptions := ⟨path,.FULL,true,.PLAIN,false,fun _ => true⟩

/-- What the loop does with an entry. -/
def tally (i : Current) : Int × folderStats_resp_t → Int × folderStats_resp_t
  | (ret,resp) =>
    match existsIsFileIsDir_ a i.current with
    | (.none,_) => (-1,resp)
    | (.dir,_) => (ret,{ resp with totalDirs := resp.totalDirs + 1 })
    | (.file,size) => (ret,{ resp with
        totalFiles := resp.totalFiles + 1
        totalSize := resp.totalSize + size })

/-- Nothing when the turns are not enough. -/
def accumulateTotalFilesAndFoldersCount (turns : Nat) (path : Str) (resp : folderStats_resp_t) :
    Option (Int × folderStats_resp_t) :=
  let dirIt := createIterator a (followed path)
  if dirIt.error then some (0,resp)
  else whileNext a none (fun i b => pure (tally a i b)) turns dirIt (0,resp)

abbrev CountMap := Str → sts_sz

/-- What the loop over the entries of a directory does with one. -/
def countEntry (count : Str → CountMap → Option (sts_sz × CountMap)) (i : Current) :
    sts_sz × CountMap → Option (sts_sz × CountMap)
  | (num,m) => do
    let (subNum,m) ← count i.current m
    some (num + subNum,m)

/-- Nothing when the depth or the turns in a directory are not enough. -/
def countTotalStatsIntoMap (turns : Nat) : Nat → Str → CountMap → Option (sts_sz × CountMap)
  | 0, _, _ => none
  | depth+1, name, m =>
    match (existsIsFileIsDir_ a name).1 with
    | .none => some (0,Function.update m name 0)
    | .file =>
      let num : sts_sz := ⟨1,0,Metadata.osGetSize a name⟩
      some (num,Function.update m name num)
    | .dir => do
      let it := createIterator a (listed name)
      let (num,m) ←
        if it.error then some (⟨0,1,0⟩,m)
        else
          whileNext a none (countEntry (countTotalStatsIntoMap turns depth)) turns it (⟨0,1,0⟩,m)
      some (num,Function.update m name num)

end Model

section Statements

variable (a : Answers) (root : Str)

def one (path : Str) : sts_sz :=
  match existsIsFileIsDir_ a path with
  | (.none,_) => 0
  | (.dir,_) => ⟨0,1,0⟩
  | (.file,size) => ⟨1,0,size⟩

def total (l : List Path) : sts_sz := (l.map fun rel => one a (spelled root rel)).sum

/-- Below the root and met by way of a link to a directory. -/
def BehindLink (rel : Path) : Prop :=
  Leads (kids a (followed root)) [] rel ∧
    ∃ q c rest, rel = q ++ c :: rest ∧ q ≠ [] ∧ DirIterator.efdL a (spelled root q) = .L

/-- As many files as large, and one directory less. -/
def Agree (resp resp' : folderStats_resp_t) (num : sts_sz) : Prop :=
  resp'.totalFiles = resp.totalFiles + num.tFiles ∧ resp'.totalSize = resp.totalSize + num.tSize ∧
    resp'.totalDirs + 1 = resp.totalDirs + num.tFolders

end Statements

section Iteration

variable {a : Answers} {root : Str} {n turns : Nat} {resp : folderStats_resp_t}

/-- The answer with what has been counted. -/
def counted (resp : folderStats_resp_t) (num : sts_sz) : folderStats_resp_t :=
  { resp with
    totalDirs := resp.totalDirs + num.tFolders
    totalFiles := resp.totalFiles + num.tFiles
    totalSize := resp.totalSize + num.tSize }

theorem counted_add (x y : sts_sz) : counted (counted resp x) y = counted resp (x + y) := by
  simp only [counted,sts_sz.add_tFiles,sts_sz.add_tFolders,sts_sz.add_tSize,UInt64.add_assoc]

@[simp] theorem counted_zero : counted resp 0 = resp := by
  simp [counted]

theorem createIterator_error {o : DirOptions} (habs : absolute o.dir) :
    (createIterator a o).error = true ↔ a.opendir o.dir = none := by
  rw [createIterator,if_neg (not_not.mpr habs)]
  cases a.opendir o.dir with
  | none => simp
  | some names => simp [DirIterator.listOnStack]

theorem tally_one (i : Current) (ret : Int) (resp : folderStats_resp_t) :
    ∃ ret', tally a i (ret,resp) = (ret',counted resp (one a i.current)) := by
  cases hefd : existsIsFileIsDir_ a i.current with
  | mk efd size => cases efd <;> simp [tally,one,hefd,counted]

theorem tally_all (o : DirOptions) (hfull : o.mode = .FULL) (ret : Int) (resp : folderStats_resp_t)
    (l : List Path) : ∃ ret', (l.map (itemOf a o)).foldl (fun b i => tally a i b) (ret,resp) =
      (ret',counted resp (total a o.dir l)) := by
  induction l generalizing ret resp with
  | nil => exact ⟨ret,by simp [total]⟩
  | cons rel l ih =>
    have hsplit : total a o.dir (rel :: l) = one a (spelled o.dir rel) + total a o.dir l := by
      simp [total]
    have hpath : (itemOf a o rel).current = spelled o.dir rel := by
      simp only [itemOf,pathShown,hfull]
    obtain ⟨ret₁,hone⟩ := tally_one (a := a) (itemOf a o rel) ret resp
    rw [List.map_cons,List.foldl_cons,hsplit,← counted_add,hone,hpath]
    exact ih ret₁ _

theorem accumulate_eq (habs : absolute root) (hopen : (a.opendir root).isSome)
    (hdepth : Shallow (kids a (followed root)) n [])
    (hturns : (below (kids a (followed root)) n []).length < turns) :
    ∃ ret, accumulateTotalFilesAndFoldersCount a turns root resp =
      some (ret,counted resp (total a root (below (kids a (followed root)) n []))) := by
  obtain ⟨names,hnames⟩ := Option.isSome_iff_exists.mp hopen
  have hno : (createIterator a (followed root)).error = false := by
    rw [Bool.eq_false_iff,ne_eq,createIterator_error habs]
    simp [followed,hnames]
  obtain ⟨ret,hret⟩ := tally_all (followed root) rfl 0 resp (below (kids a (followed root)) n [])
  refine ⟨ret,?_⟩
  simp only [accumulateTotalFilesAndFoldersCount,hno,Bool.false_eq_true,if_false]
  rw [(iterates_below habs hnames hdepth).loop (by simpa using hturns),List.foldlM_pure]
  exact congrArg some hret

end Iteration

/-! ### The recursion -/

section Recursion

variable {a : Answers} {root : Str} {n depth turns : Nat} {rel : Path} {l : List Path}

/-- What the recursion goes through. -/
def recursed (path : Str) : DirOptions := ⟨path,.FULL,true,.RECURSIVE,false,fun _ => true⟩

theorem total_flatMap {α : Type} (l : List α) (f : α → List Path) :
    total a root (l.flatMap f) = (l.map fun c => total a root (f c)).sum := by
  rw [total,List.map_flatMap,List.flatMap,List.sum_flatten,List.map_map]
  rfl

theorem one_dir {path : Str} (h : (existsIsFileIsDir_ a path).1 = .dir) : one a path = ⟨0,1,0⟩ := by
  rw [one]
  cases hefd : existsIsFileIsDir_ a path with
  | mk efd size =>
    rw [hefd] at h
    obtain rfl : efd = .dir := h
    rfl

theorem efd_dir {path : Str} : (existsIsFileIsDir_ a path).1 = .dir ↔ DirIterator.efdL a path = .d := by
  rw [efdL_d,existsIsFileIsDir_]
  cases a.lstat path with
  | none => simp
  | some st => by_cases hd : st.kind = .dir <;> simp [hd]

theorem count_leaf {path : Str} {m : CountMap} (h : (existsIsFileIsDir_ a path).1 ≠ .dir) :
    countTotalStatsIntoMap a turns (depth+1) path m =
      some (one a path,Function.update m path (one a path)) := by
  rw [countTotalStatsIntoMap,one,Metadata.osGetSize]
  unfold existsIsFileIsDir_ at h ⊢
  cases hst : a.lstat path with
  | none => rfl
  | some st =>
    by_cases hd : st.kind = .dir
    · simp [hst,hd] at h
    · simp [hd]

theorem kids_listed {names : List Name} (hopen : a.opendir (spelled root rel) = some names) :
    kids a (listed (spelled root rel)) [] = names.reverse := by
  have hpath : spelled (listed (spelled root rel)).dir [] = spelled root rel := spelled_nil _
  rw [kids,if_pos (.inl rfl),hpath,hopen]
  simp [pushed,listed]

theorem kids_recursed (hdir : DirIterator.efdL a (spelled root rel) = .d) :
    kids a (recursed root) rel = ((a.opendir (spelled root rel)).getD []).reverse := by
  have hvisited : visited a (recursed root) (spelled root rel) := by simp [visited,recursed,hdir]
  have hpath : (recursed root).dir = root := rfl
  rw [kids,hpath,if_pos (.inr hvisited)]
  cases a.opendir (spelled root rel) <;> simp [pushed,recursed]

theorem spelled_inj {r r' : Path} (h : ∀ c ∈ r, ProperName c) (h' : ∀ c ∈ r', ProperName c)
    (heq : spelled root r = spelled root r') : r = r' := by
  unfold spelled at heq
  replace heq := List.append_cancel_left heq
  have hfront : ∀ {c : Name} {q : Path}, ProperName c →
      (c ++ q.flatMap (slash :: ·)).takeWhile (· ≠ slash) = c := by
    intro c q hc
    have hall : c.takeWhile (· ≠ slash) = c := List.takeWhile_eq_self_iff.mpr fun b hb => by
      simpa using fun hslash : b = slash => hc.2.1 (hslash ▸ hb)
    rw [List.takeWhile_append,hall,if_pos rfl]
    cases q with
    | nil => simp
    | cons d q => simp
  induction r generalizing r' with
  | nil =>
    cases r' with
    | nil => rfl
    | cons d r' => simp at heq
  | cons c r ih =>
    cases r' with
    | nil => simp at heq
    | cons d r' =>
      rw [List.flatMap_cons,List.flatMap_cons] at heq
      have htail : c ++ r.flatMap (slash :: ·) = d ++ r'.flatMap (slash :: ·) := by simpa using heq
      have hname := congrArg (List.takeWhile (· ≠ slash)) htail
      rw [hfront (h c List.mem_cons_self),hfront (h' d List.mem_cons_self)] at hname
      subst hname
      rw [ih (fun e he => h e (List.mem_cons_of_mem c he)) (fun e he => h' e (List.mem_cons_of_mem c he))
        (List.append_cancel_left htail)]

theorem total_cons : total a root (rel :: l) = one a (spelled root rel) + total a root l := by
  simp [total]

/-- The map has the totals of every node at or below `rel`, and is otherwise as it was. -/
structure Stored (a : Answers) (root : Str) (rel : Path) (m m' : CountMap) : Prop where
  kept (x : Str) : (∀ r, Leads (kids a (recursed root)) rel r → x ≠ spelled root (rel ++ r)) →
    m' x = m x
  stored {r : Path} {k : Nat} : Leads (kids a (recursed root)) rel r →
    Shallow (kids a (recursed root)) k (rel ++ r) → m' (spelled root (rel ++ r)) =
      total a root ((rel ++ r) :: below (kids a (recursed root)) k (rel ++ r))

theorem stored_leaf {m : CountMap} (hkids : kids a (recursed root) rel = []) :
    Stored a root rel m (Function.update m (spelled root rel) (one a (spelled root rel))) := by
  have honly : ∀ r, Leads (kids a (recursed root)) rel r → r = [] := by
    intro r hr
    cases r with
    | nil => rfl
    | cons c r =>
      have hc := hr.1
      rw [hkids] at hc
      cases hc
  constructor
  · intro x hx
    have hne := hx [] trivial
    rw [List.append_nil] at hne
    exact Function.update_of_ne hne _ _
  · intro r k hr _
    rw [honly r hr,List.append_nil,Function.update_self,below_leaf hkids]
    simp [total]

theorem count_entries {cs : List Name} {g : Name → sts_sz} (hnodup : cs.Nodup)
    (hproper : ∀ c ∈ cs, ∀ r, Leads (kids a (recursed root)) (rel ++ [c]) r →
      ∀ b ∈ rel ++ [c] ++ r, ProperName b)
    (hcs : ∀ c ∈ cs, ∀ m, ∃ m', countTotalStatsIntoMap a turns depth (spelled root (rel ++ [c])) m =
      some (g c,m') ∧ Stored a root (rel ++ [c]) m m') (num : sts_sz) (m : CountMap) : ∃ m',
    ((cs.map fun c => [c]).map (itemOf a (listed (spelled root rel)))).foldlM
      (fun b i => countEntry (countTotalStatsIntoMap a turns depth) i b) (num,m) =
        some (num + (cs.map g).sum,m') ∧
    (∀ x, (∀ c ∈ cs, ∀ r, Leads (kids a (recursed root)) (rel ++ [c]) r →
      x ≠ spelled root (rel ++ [c] ++ r)) → m' x = m x) ∧
    ∀ c ∈ cs, ∀ r k, Leads (kids a (recursed root)) (rel ++ [c]) r →
      Shallow (kids a (recursed root)) k (rel ++ [c] ++ r) → m' (spelled root (rel ++ [c] ++ r)) =
        total a root ((rel ++ [c] ++ r) :: below (kids a (recursed root)) k (rel ++ [c] ++ r)) := by
  induction cs generalizing num m with
  | nil => exact ⟨m,by simp,fun _ _ => rfl,by simp⟩
  | cons c cs ih =>
    obtain ⟨hc,hnodup⟩ := List.nodup_cons.mp hnodup
    obtain ⟨m₁,hfirst,hmap⟩ := hcs c List.mem_cons_self m
    obtain ⟨m₂,hrest,hkept,hstored⟩ := ih hnodup (fun d hd => hproper d (List.mem_cons_of_mem c hd))
      (fun d hd => hcs d (List.mem_cons_of_mem c hd)) (num + g c) m₁
    refine ⟨m₂,?_,fun x hx => ?_,fun d hd r k hr hk => ?_⟩
    · have hpath : (itemOf a (listed (spelled root rel)) [c]).current = spelled root (rel ++ [c]) := by
        simp [itemOf,pathShown,listed,spelled]
      rw [List.map_cons,List.map_cons,List.foldlM_cons,countEntry,hpath,hfirst]
      simp only [Option.bind_eq_bind,Option.bind_some,List.map_cons,List.sum_cons,← add_assoc]
      exact hrest
    · rw [hkept x fun d hd => hx d (List.mem_cons_of_mem c hd)]
      exact hmap.kept x (hx c List.mem_cons_self)
    · rcases List.mem_cons.mp hd with rfl | hd
      · -- the other entries leave what is stored for this one
        rw [hkept _ fun e he r' hr' heq => ?_]
        · exact hmap.stored hr hk
        · have hsame := spelled_inj (hproper d List.mem_cons_self r hr)
            (hproper e (List.mem_cons_of_mem d he) r' hr') heq
          simp only [List.append_assoc,List.append_cancel_left_eq,List.singleton_append,
            List.cons.injEq] at hsame
          exact hc (hsame.1 ▸ he)
      · exact hstored d hd r k hr hk

theorem sum_children (hdepth : Shallow (kids a (recursed root)) n rel) :
    ((kids a (recursed root) rel).map fun c => total a root
      ((rel ++ [c]) :: below (kids a (recursed root)) (n-1) (rel ++ [c]))).sum =
        total a root (below (kids a (recursed root)) n rel) := by
  cases n with
  | zero =>
    rw [hdepth.leaf,below]
    rfl
  | succ n => rw [below,total_flatMap,Nat.add_sub_cancel]

theorem length_children_lt (hdepth : Shallow (kids a (recursed root)) n rel)
    (hturns : (below (kids a (recursed root)) n rel).length < turns) :
    (kids a (recursed root) rel).length < turns := by
  cases n with
  | zero =>
    rw [hdepth.leaf]
    exact Nat.zero_lt_of_lt hturns
  | succ n => exact length_kids_le.trans_lt hturns

/-- Once the totals below `rel` are in the map, its own is put there. -/
theorem stored_node {m m' : CountMap} (hdepth : Shallow (kids a (recursed root)) n rel)
    (hkept : ∀ x, (∀ c ∈ kids a (recursed root) rel, ∀ r,
      Leads (kids a (recursed root)) (rel ++ [c]) r → x ≠ spelled root (rel ++ [c] ++ r)) → m' x = m x)
    (hstored : ∀ c ∈ kids a (recursed root) rel, ∀ r k,
      Leads (kids a (recursed root)) (rel ++ [c]) r →
      Shallow (kids a (recursed root)) k (rel ++ [c] ++ r) → m' (spelled root (rel ++ [c] ++ r)) =
        total a root ((rel ++ [c] ++ r) :: below (kids a (recursed root)) k (rel ++ [c] ++ r))) :
    Stored a root rel m (Function.update m' (spelled root rel)
      (total a root (rel :: below (kids a (recursed root)) n rel))) := by
  constructor
  · intro x hx
    have hne := hx [] trivial
    rw [List.append_nil] at hne
    rw [Function.update_of_ne hne]
    refine hkept x fun c hc r hr => ?_
    rw [List.append_assoc]
    exact hx ([c] ++ r) ⟨hc,hr⟩
  · intro r k hr hk
    cases r with
    | nil =>
      rw [List.append_nil] at hk ⊢
      rw [Function.update_self,below_same hdepth hk]
    | cons c r =>
      have hne : spelled root (rel ++ c :: r) ≠ spelled root rel := by
        intro heq
        have hlen := congrArg List.length heq
        simp [spelled] at hlen
      rw [Function.update_of_ne hne]
      have hat := hstored c hr.1 r k hr.2
      rw [List.append_assoc] at hat
      exact hat hk

/-- The recursion adds up what there is below by itself, and keeps that of every node. -/
theorem count_eq (hnames : ∀ r, Leads (kids a (recursed root)) [] r → ∀ c ∈ r, ProperName c)
    (hnodup : ∀ r, (kids a (recursed root) r).Nodup) (habs : absolute root)
    (hrel : Leads (kids a (recursed root)) [] rel)
    (hdepth : Shallow (kids a (recursed root)) n rel) (hn : n < depth)
    (hroot : rel = [] → DirIterator.efdL a root = .d)
    (hturns : (below (kids a (recursed root)) n rel).length < turns) (m : CountMap) :
    ∃ m', countTotalStatsIntoMap a turns depth (spelled root rel) m =
      some (total a root (rel :: below (kids a (recursed root)) n rel),m') ∧ Stored a root rel m m' := by
  induction depth generalizing n rel m with
  | zero => omega
  | succ depth ih =>
    rw [total_cons]
    by_cases hdir : (existsIsFileIsDir_ a (spelled root rel)).1 = .dir
    · have hkids := kids_recursed (efd_dir.mp hdir)
      have habs' : absolute (listed (spelled root rel)).dir := by
        rw [absolute] at habs
        rw [absolute,listed,spelled,List.head?_append,habs,Option.some_or]
      rw [countTotalStatsIntoMap,hdir,one_dir hdir]
      cases hopen : a.opendir (spelled root rel) with
      | none =>
        rw [hopen] at hkids
        have herror := (createIterator_error habs').mpr hopen
        refine ⟨Function.update m (spelled root rel) ⟨0,1,0⟩,?_,?_⟩
        · simp [herror,below_leaf hkids,total]
        · rw [← one_dir hdir]
          exact stored_leaf hkids
      | some names =>
        rw [hopen] at hkids
        have hlisted := kids_listed hopen
        have herror : (createIterator a (listed (spelled root rel))).error = false := by
          rw [Bool.eq_false_iff,ne_eq,createIterator_error habs']
          simp [listed,hopen]
        have hiter := iterates_below habs' hopen (shallow_plain rfl)
        have hitems : below (kids a (listed (spelled root rel))) 1 [] =
            (kids a (recursed root) rel).map fun c => [c] := by
          rw [below_one,hlisted,hkids]
          rfl
        rw [hitems] at hiter
        have hchild : ∀ c ∈ kids a (recursed root) rel, Leads (kids a (recursed root)) [] (rel ++ [c]) :=
          fun c hc => leads_concat.mpr ⟨hrel,hc⟩
        have hcount : ∀ c ∈ kids a (recursed root) rel, ∀ m, ∃ m',
            countTotalStatsIntoMap a turns depth (spelled root (rel ++ [c])) m = some
              (total a root ((rel ++ [c]) :: below (kids a (recursed root)) (n-1) (rel ++ [c])),m') ∧
            Stored a root (rel ++ [c]) m m' := by
          intro c hc m
          cases n with
          | zero =>
            rw [hdepth.leaf] at hc
            cases hc
          | succ n =>
            have hlen := @length_below_le _ (kids a (recursed root)) n rel c hc
            exact ih (hchild c hc) (hdepth.child hc) (by omega) (fun hnil => by simp at hnil)
              (hlen.trans_lt hturns) m
        obtain ⟨m',hentries,hkept,hstored⟩ := count_entries (hnodup rel)
          (fun c hc r hr => hnames _ (leads_append.mpr ⟨hchild c hc,hr⟩)) hcount ⟨0,1,0⟩ m
        have hlen : ((kids a (recursed root) rel).map fun c => [c]).length < turns := by
          rw [List.length_map]
          exact length_children_lt hdepth hturns
        rw [sum_children hdepth] at hentries
        refine ⟨_,?_,stored_node hdepth hkept hstored⟩
        simp only [herror,Bool.false_eq_true,if_false,Option.bind_eq_bind,total_cons,one_dir hdir]
        rw [hiter.loop (by simpa using hlen),hentries]
        rfl
    · have hne : rel ≠ [] := by
        rintro rfl
        rw [spelled_nil,efd_dir] at hdir
        exact hdir (hroot rfl)
      have hkids : kids a (recursed root) rel = [] := by
        have hnot : ¬ visited a (recursed root) (spelled root rel) := by
          simpa [visited,recursed,efd_dir] using hdir
        exact if_neg (not_or.mpr ⟨hne,hnot⟩)
      exact ⟨_,by rw [count_leaf hdir,below_leaf hkids]; simp [total],stored_leaf hkids⟩

theorem straight_recursed {place : Str → Option Path} : Straight a place root (kids a (recursed root)) := by
  intro rel c _ hc
  obtain ⟨hlisted,hvisited⟩ := listed_of_mem_kids hc
  exact ⟨hlisted,fun hne => .inl (of_decide_eq_true (hvisited hne))⟩

end Recursion

/-! ### The difference -/

section Difference

variable {a : Answers} {fs : FileSystem} {place : Str → Option Path} {root : Str} {n : Nat} {rel : Path}

theorem mem_kids_recursed {c : Name} : c ∈ kids a (recursed root) rel ↔
    c ∈ kids a (followed root) rel ∧ (rel ≠ [] → DirIterator.efdL a (spelled root rel) ≠ .L) := by
  have hsame : pushed (recursed root) = pushed (followed root) := rfl
  have hreal : visited a (recursed root) (spelled root rel) ↔
      DirIterator.efdL a (spelled root rel) = .d := decide_eq_true_iff
  have hall : visited a (followed root) (spelled root rel) ↔
      DirIterator.efdL a (spelled root rel) = .d ∨ DirIterator.efdL a (spelled root rel) = .L :=
    decide_eq_true_iff
  have hroot : (recursed root).dir = root := rfl
  have hroot' : (followed root).dir = root := rfl
  rw [kids,kids,hroot,hroot',hsame]
  simp only [hreal,hall]
  by_cases hnil : rel = []
  · simp [hnil]
  · by_cases hlink : DirIterator.efdL a (spelled root rel) = .L
    · simp [hnil,hlink]
    · simp [hnil,hlink]

/-- The recursion goes the ways of the iteration that go through no link. -/
theorem leads_recursed : Leads (kids a (recursed root)) [] rel ↔
    Leads (kids a (followed root)) [] rel ∧ ¬ BehindLink a root rel := by
  induction rel using List.reverseRecOn with
  | nil => simp [Leads,BehindLink]
  | append_singleton rel c ih =>
    rw [leads_concat,leads_concat,ih,List.nil_append,mem_kids_recursed]
    constructor
    · rintro ⟨⟨hrel,hnot⟩,hc,hlast⟩
      refine ⟨⟨hrel,hc⟩,?_⟩
      rintro ⟨_,q,d,rest,heq,hq,hlink⟩
      rcases List.eq_nil_or_concat' rest with rfl | ⟨r,e,rfl⟩
      · obtain ⟨rfl,_⟩ := List.append_inj' heq rfl
        exact hlast hq hlink
      · rw [← List.cons_append,← List.append_assoc] at heq
        exact hnot ⟨hrel,q,d,r,(List.append_inj' heq rfl).1,hq,hlink⟩
    · rintro ⟨⟨hrel,hc⟩,hnot⟩
      refine ⟨⟨hrel,?_⟩,hc,fun hne hlink => ?_⟩
      · rintro ⟨_,q,d,rest,rfl,hq,hlink⟩
        exact hnot ⟨leads_concat.mpr ⟨hrel,hc⟩,q,d,rest ++ [c],by simp,hq,hlink⟩
      · exact hnot ⟨leads_concat.mpr ⟨hrel,hc⟩,rel,c,[],rfl,hne,hlink⟩

open Classical in
/-- What the iteration comes to is what the recursion does, and what is behind links. -/
theorem below_split (h : a.Shows fs place) :
    (below (kids a (followed root)) n []).Perm ((below (kids a (followed root)) n []).filter
      (fun rel => BehindLink a root rel) ++ below (kids a (recursed root)) n []) := by
  have hnodup : ∀ o : DirOptions, (below (kids a o) n []).Nodup := fun o =>
    (pairwise_below fun rel _ => nodup_kids h).imp fun {r r'} hne heq =>
      hne (by rw [heq])
  refine (List.filter_append_perm (fun rel => decide (BehindLink a root rel)) _).symm.trans
    (List.Perm.append_left _ ?_)
  refine (List.perm_ext_iff_of_nodup ((hnodup _).filter _) (hnodup _)).mpr fun rel => ?_
  rw [List.mem_filter,mem_below,mem_below]
  constructor
  · rintro ⟨⟨r,hne,hlen,hr,rfl⟩,hnot⟩
    exact ⟨_,hne,hlen,leads_recursed.mpr ⟨hr,by simpa using hnot⟩,rfl⟩
  · rintro ⟨r,hne,hlen,hr,rfl⟩
    obtain ⟨hr,hnot⟩ := leads_recursed.mp hr
    exact ⟨⟨_,hne,hlen,hr,rfl⟩,by simpa using hnot⟩

theorem total_perm {l l' : List Path} (h : l.Perm l') : total a root l = total a root l' :=
  (h.map _).sum_eq

theorem total_append (l l' : List Path) : total a root (l ++ l') = total a root l + total a root l' := by
  simp [total]

theorem agree_iff (resp : folderStats_resp_t) (x y : sts_sz) :
    Agree resp (counted resp (x + y)) (⟨0,1,0⟩ + y) ↔ x = 0 := by
  have hfiles : resp.totalFiles + (x.tFiles + y.tFiles) = resp.totalFiles + (0 + y.tFiles) ↔
      x.tFiles = 0 := by
    rw [add_right_inj,add_left_inj]
  have hsize : resp.totalSize + (x.tSize + y.tSize) = resp.totalSize + (0 + y.tSize) ↔
      x.tSize = 0 := by
    rw [add_right_inj,add_left_inj]
  have hfolders : resp.totalDirs + (x.tFolders + y.tFolders) + 1 =
      resp.totalDirs + (1 + y.tFolders) ↔ x.tFolders = 0 := by
    rw [add_assoc,add_right_inj,add_comm 1,add_assoc]
    exact add_eq_right
  simp only [Agree,counted,sts_sz.add_tFiles,sts_sz.add_tFolders,sts_sz.add_tSize]
  rw [hfiles,hsize,hfolders,sts_sz.ext_iff]
  simp only [sts_sz.zero_tFiles,sts_sz.zero_tFolders,sts_sz.zero_tSize]
  tauto

theorem total_counts (l : List Path) :
    (total a root l).tFiles = .ofNat (l.countP fun rel =>
      (existsIsFileIsDir_ a (spelled root rel)).1 = .file) ∧
    (total a root l).tFolders = .ofNat (l.countP fun rel =>
      (existsIsFileIsDir_ a (spelled root rel)).1 = .dir) := by
  induction l with
  | nil => exact ⟨rfl,rfl⟩
  | cons rel l ih =>
    have hsplit : total a root (rel :: l) = one a (spelled root rel) + total a root l := by
      simp [total]
    rw [hsplit,List.countP_cons,List.countP_cons,UInt64.ofNat_add,UInt64.ofNat_add,← ih.1,← ih.2,one]
    cases hefd : existsIsFileIsDir_ a (spelled root rel) with
    | mk efd size => cases efd <;> simp [UInt64.add_comm]

theorem existsIsFileIsDir_none {path : Str} :
    (existsIsFileIsDir_ a path).1 = .none ↔ a.lstat path = none := by
  rw [existsIsFileIsDir_]
  cases a.lstat path with
  | none => simp
  | some st => by_cases hd : st.kind = .dir <;> simp [hd]

theorem ofNat_eq_zero {k : Nat} (hk : k < 2^64) (h : UInt64.ofNat k = 0) : k = 0 := by
  have hnat := congrArg UInt64.toNat h
  rwa [UInt64.toNat_ofNat_of_lt' hk] at hnat

/-- Few enough paths count as nothing only where there is nothing to look at. -/
theorem total_eq_zero_iff {l : List Path} (hl : l.length < 2^64) :
    total a root l = 0 ↔ ∀ rel ∈ l, a.lstat (spelled root rel) = none := by
  constructor
  · intro hzero rel hrel
    obtain ⟨hfiles,hfolders⟩ := @total_counts a root l
    rw [hzero] at hfiles hfolders
    have hnofile := ofNat_eq_zero (List.countP_le_length.trans_lt hl) hfiles.symm
    have hnodir := ofNat_eq_zero (List.countP_le_length.trans_lt hl) hfolders.symm
    rw [List.countP_eq_zero] at hnofile hnodir
    have hfile := hnofile rel hrel
    have hdir := hnodir rel hrel
    rw [← existsIsFileIsDir_none]
    cases hefd : (existsIsFileIsDir_ a (spelled root rel)).1 with
    | none => rfl
    | file => exact absurd hefd (by simpa using hfile)
    | dir => exact absurd hefd (by simpa using hdir)
  · intro hnone
    rw [total,List.map_congr_left (g := fun _ => 0) fun rel hrel => ?_]
    · simp
    · rw [one,existsIsFileIsDir_,hnone rel hrel]

/-- The two counts agree where what is behind links to directories comes to nothing, that is, as far as
64 bits go, where nothing can be looked at there. -/
theorem totals_right {names : List Name} (h : a.Shows fs place) (hnul : NulFree root)
    (habs : absolute root) (hdir : ∃ st, a.lstat root = some st ∧ st.kind = .dir)
    (hopen : a.opendir root = some names) (hcycles : NoCycles a place (followed root)) :
    ∃ l : List Path, l.Nodup ∧ (∀ rel, rel ∈ l ↔ BehindLink a root rel) ∧
      ∃ least, ∀ turns depth, least ≤ turns → least ≤ depth → ∀ resp m, ∃ ret resp' num m',
        accumulateTotalFilesAndFoldersCount a turns root resp = some (ret,resp') ∧
        countTotalStatsIntoMap a turns depth root m = some (num,m') ∧
        (Agree resp resp' num ↔ total a root l = 0) ∧
        (l.length < 2^64 → (Agree resp resp' num ↔
          ∀ rel, BehindLink a root rel → a.lstat (spelled root rel) = none)) := by
  classical
  have hdepth : Shallow (kids a (followed root)) fs.paths.length [] :=
    shallow_of_noCycles h hnul rfl hcycles
  have hdepth' : Shallow (kids a (recursed root)) fs.paths.length [] := fun rel hrel =>
    hdepth rel (leads_recursed.mp hrel).1
  obtain ⟨all,hall⟩ : ∃ all, all = below (kids a (followed root)) fs.paths.length [] := ⟨_,rfl⟩
  obtain ⟨own,hown⟩ : ∃ own, own = below (kids a (recursed root)) fs.paths.length [] := ⟨_,rfl⟩
  obtain ⟨l,hl⟩ : ∃ l, l = all.filter fun rel => BehindLink a root rel := ⟨_,rfl⟩
  have hsplit : all.Perm (l ++ own) := by
    rw [hl,hall,hown]
    exact below_split h
  have hmem : ∀ rel, rel ∈ l ↔ BehindLink a root rel := fun rel => by
    rw [hl,hall,List.mem_filter,mem_below,decide_eq_true_iff]
    refine and_iff_right_of_imp fun hbehind => ⟨rel,?_,hdepth rel hbehind.1,hbehind.1,rfl⟩
    obtain ⟨_,q,c,rest,rfl,_⟩ := hbehind
    simp
  have hnodup : l.Nodup := by
    rw [hl,hall]
    refine List.Nodup.filter _ ((pairwise_below fun rel _ => nodup_kids h).imp ?_)
    rintro r r' hne rfl
    exact hne List.prefix_rfl
  refine ⟨l,hnodup,hmem,all.length + own.length + fs.paths.length + 1,fun turns depth ht hd resp m => ?_⟩
  obtain ⟨ret,hacc⟩ := @accumulate_eq a root fs.paths.length turns resp habs (by rw [hopen]; rfl) hdepth
    (by rw [← hall]; omega)
  obtain ⟨m',hcount,_⟩ := @count_eq a root fs.paths.length depth turns []
    (fun r hr => proper_of_leads h straight_recursed hr) (fun r => nodup_kids h) habs trivial hdepth'
    (by omega) (fun _ => efdL_d.mpr hdir) (by rw [← hown]; omega) m
  have hroot : (existsIsFileIsDir_ a (spelled root [])).1 = .dir := by
    rw [spelled_nil,efd_dir]
    exact efdL_d.mpr hdir
  have hnum : total a root ([] :: own) = ⟨0,1,0⟩ + total a root own := by
    rw [← one_dir hroot]
    simp [total]
  rw [← hall,total_perm hsplit,total_append] at hacc
  rw [← hown,hnum,spelled_nil] at hcount
  refine ⟨ret,_,_,m',hacc,hcount,agree_iff _ _ _,fun hlen => ?_⟩
  rw [agree_iff,total_eq_zero_iff hlen]
  exact forall_congr' fun rel => by rw [hmem]

end Difference

/-- "/r/l" is a link to "/d", where there is the file "x". -/
def linkTree : FileSystem :=
  .ofEntries [([],.dir 0o755),([text ['r']],.dir 0o755),([text ['r'],text ['l']],.link (text ['/','d'])),
    ([text ['d']],.dir 0o755),([text ['d'],text ['x']],.file [7] 0o644)] (by decide)

def linkAnswers : Answers := System.calm.toKernel.answers linkTree fun _ => true

def linkPlace (s : Str) : Option Path := (System.calm.follow linkTree s).toOption

theorem linkTree_noCycles : NoCycles linkAnswers linkPlace (followed (text ['/','r'])) := by
  intro rel hrel hne hlink
  have hroot : kids linkAnswers (followed (text ['/','r'])) [] = [text ['l']] := by decide +kernel
  have hbehind : kids linkAnswers (followed (text ['/','r'])) [text ['l']] = [text ['x']] := by
    decide +kernel
  have hleaf : kids linkAnswers (followed (text ['/','r'])) [text ['l'],text ['x']] = [] := by
    decide +kernel
  have hfile : DirIterator.efdL linkAnswers
      (spelled (followed (text ['/','r'])).dir [text ['l'],text ['x']]) = .file := by
    decide +kernel
  rcases rel with _ | ⟨c,_ | ⟨d,_ | ⟨e,rel⟩⟩⟩
  · exact absurd rfl hne
  · obtain rfl : c = text ['l'] := by simpa [hroot] using hrel.1
    rintro ⟨x,p,q,⟨⟨y,rfl⟩,z,hz⟩,hp,hq,hpre⟩
    -- nothing but the root itself is gone through
    obtain rfl : y = [] := by
      have hlen := congrArg List.length hz
      rcases y with _ | ⟨b,_ | ⟨b',y⟩⟩
      · rfl
      · simp [spelled,followed,text,slash] at hz
      · simp [spelled,followed,text] at hlen
    have hlinked : linkPlace (spelled (followed (text ['/','r'])).dir [text ['l']]) =
        some [text ['d']] := by
      decide +kernel
    have hown : linkPlace (text ['/','r']) = some [text ['r']] := by decide +kernel
    obtain rfl := Option.some.inj (hlinked.symm.trans hp)
    obtain rfl := Option.some.inj (hown.symm.trans (by simpa [followed] using hq))
    exact absurd hpre (by decide)
  · obtain rfl : c = text ['l'] := by simpa [hroot] using hrel.1
    obtain rfl : d = text ['x'] := by simpa [hbehind] using hrel.2.1
    rw [hfile] at hlink
    cases hlink
  · obtain rfl : c = text ['l'] := by simpa [hroot] using hrel.1
    obtain rfl : d = text ['x'] := by simpa [hbehind] using hrel.2.1
    have he := hrel.2.2.1
    simp [hleaf] at he

theorem totals_right_link :
    ∃ l : List Path, l.Nodup ∧ (∀ rel, rel ∈ l ↔ BehindLink linkAnswers (text ['/','r']) rel) ∧
      ∃ least, ∀ turns depth, least ≤ turns → least ≤ depth → ∀ resp m, ∃ ret resp' num m',
        accumulateTotalFilesAndFoldersCount linkAnswers turns (text ['/','r']) resp = some (ret,resp') ∧
        countTotalStatsIntoMap linkAnswers turns depth (text ['/','r']) m = some (num,m') ∧
        (Agree resp resp' num ↔ total linkAnswers (text ['/','r']) l = 0) ∧
        (l.length < 2^64 → (Agree resp resp' num ↔ ∀ rel, BehindLink linkAnswers (text ['/','r']) rel →
          linkAnswers.lstat (spelled (text ['/','r']) rel) = none)) :=
  totals_right (System.calm.toKernel.answers_shows linkTree _) (by decide) (by decide)
    ⟨Node.stat (.dir 0o755),by decide +kernel,rfl⟩
    (by decide +kernel : linkAnswers.opendir (text ['/','r']) = some [text ['l']]) linkTree_noCycles

/-- The file behind the link is counted by the iteration alone. -/
theorem totals_link : NoCycles linkAnswers linkPlace (followed (text ['/','r'])) ∧
    (accumulateTotalFilesAndFoldersCount linkAnswers 3 (text ['/','r']) ⟨0,0,0,0,0⟩).map Prod.snd =
      some ⟨0,0,0,2,3⟩ ∧
    (countTotalStatsIntoMap linkAnswers 2 2 (text ['/','r']) fun _ => 0).map Prod.fst = some ⟨1,1,2⟩ ∧
    ¬ Agree ⟨0,0,0,0,0⟩ ⟨0,0,0,2,3⟩ ⟨1,1,2⟩ :=
  ⟨linkTree_noCycles,by decide +kernel,by decide +kernel,fun h => absurd h.1 (by decide)⟩

end Totals
end RootHelper
