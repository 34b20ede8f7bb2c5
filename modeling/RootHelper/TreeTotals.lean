import RootHelper.FolderTotals

/-!
What the recursive count says of the tree the calls show below a root, and what it leaves in the map for
each node of it.
-/

set_option autoImplicit false

namespace RootHelper
open Posix Preorder DirIterator

namespace Totals

section Tree

variable (a : Answers) (root : Str)

/-- A node of the tree: all above it are directories, no links, that are listed. -/
def Shown (rel : Path) : Prop :=
  ∀ q c rest, rel = q ++ c :: rest → (∃ st, a.lstat (spelled root q) = some st ∧ st.kind = .dir) ∧
    ∃ names, a.opendir (spelled root q) = some names ∧ c ∈ names

def isDirectory (path : Str) : Bool := (a.lstat path).any fun st => st.kind = .dir

/-- Anything else that can be looked at, links too. -/
def isOther (path : Str) : Bool := (a.lstat path).any fun st => st.kind ≠ .dir

def sizeAt (path : Str) : Nat :=
  match a.lstat path with
  | none => 0
  | some st => if st.kind = .dir then 0 else st.size.toNat

/-- The numbers of these nodes. -/
structure Numbers (num : sts_sz) (l : List Path) : Prop where
  files : num.tFiles = .ofNat (l.countP fun rel => isOther a (spelled root rel))
  folders : num.tFolders = .ofNat (l.countP fun rel => isDirectory a (spelled root rel))
  size : num.tSize = .ofNat (l.map fun rel => sizeAt a (spelled root rel)).sum

/-- `l` are the nodes of the tree, `num` has its numbers, and the map those of the tree at each node. -/
structure Exact (m : CountMap) (num : sts_sz) (m' : CountMap) (l : List Path) : Prop where
  nodes : ∀ rel, rel ∈ l ↔ Shown a root rel
  nodup : l.Nodup
  result : Numbers a root num l
  stored : ∀ rel ∈ l, Numbers a root (m' (spelled root rel)) (l.filter fun q => rel <+: q)
  kept : ∀ x, (∀ rel ∈ l, x ≠ spelled root rel) → m' x = m x

end Tree

section Counts

variable {a : Answers} {fs : FileSystem} {place : Str → Option Path} {root : Str} {rel : Path}
  {l l' : List Path} {num : sts_sz}

theorem numbers_one : Numbers a root (one a (spelled root rel)) [rel] := by
  constructor
  all_goals
    simp only [List.countP_singleton,List.map_singleton,List.sum_singleton,isOther,isDirectory,sizeAt,one,
      existsIsFileIsDir_]
    cases a.lstat (spelled root rel) with
    | none => rfl
    | some st => by_cases hd : st.kind = .dir <;> simp [hd]

theorem Numbers.append {num' : sts_sz} (h : Numbers a root num l) (h' : Numbers a root num' l') :
    Numbers a root (num + num') (l ++ l') := by
  constructor
  · rw [sts_sz.add_tFiles,h.files,h'.files,List.countP_append,UInt64.ofNat_add]
  · rw [sts_sz.add_tFolders,h.folders,h'.folders,List.countP_append,UInt64.ofNat_add]
  · rw [sts_sz.add_tSize,h.size,h'.size,List.map_append,List.sum_append,UInt64.ofNat_add]

theorem numbers_total (l : List Path) : Numbers a root (total a root l) l := by
  induction l with
  | nil => exact ⟨rfl,rfl,rfl⟩
  | cons rel l ih =>
    rw [total_cons]
    exact numbers_one.append ih

theorem Numbers.perm (h : Numbers a root num l) (hperm : l.Perm l') : Numbers a root num l' :=
  ⟨by rw [h.files,hperm.countP_eq],by rw [h.folders,hperm.countP_eq],
    by rw [h.size,(hperm.map _).sum_nat]⟩

theorem mem_kids_shown {c : Name} (hdir : DirIterator.efdL a root = .d) :
    c ∈ kids a (recursed root) rel ↔
      (∃ st, a.lstat (spelled root rel) = some st ∧ st.kind = .dir) ∧
        ∃ names, a.opendir (spelled root rel) = some names ∧ c ∈ names := by
  rw [← efdL_d]
  constructor
  · intro hc
    obtain ⟨hlisted,hvisited⟩ := listed_of_mem_kids hc
    refine ⟨?_,hlisted⟩
    by_cases hnil : rel = []
    · rw [hnil,spelled_nil,hdir]
    · exact of_decide_eq_true (hvisited hnil)
  · rintro ⟨hd,names,hopen,hc⟩
    rw [kids_recursed hd,hopen]
    simpa using hc

theorem leads_shown (hdir : DirIterator.efdL a root = .d) :
    Leads (kids a (recursed root)) [] rel ↔ Shown a root rel := by
  rw [leads_iff,Shown]
  simp only [List.nil_append,mem_kids_shown hdir]

theorem shown_leaf (hdir : DirIterator.efdL a root ≠ .d) : Shown a root rel ↔ rel = [] := by
  constructor
  · intro h
    cases rel with
    | nil => rfl
    | cons c rel =>
      have hst := (h [] c rel rfl).1
      rw [spelled_nil] at hst
      exact absurd (efdL_d.mpr hst) hdir
  · rintro rfl q c rest heq
    simp at heq

theorem nodup_nodes (h : a.Shows fs place) {n : Nat} :
    (rel :: below (kids a (recursed root)) n rel).Nodup := by
  refine List.nodup_cons.mpr ⟨fun hmem => ?_,?_⟩
  · obtain ⟨r,hne,_,_,heq⟩ := mem_below.mp hmem
    exact hne (List.append_right_eq_self.mp heq.symm)
  · refine (pairwise_below fun r _ => nodup_kids h).imp ?_
    rintro r r' hne rfl
    exact hne List.prefix_rfl

theorem mem_nodes {n : Nat} {q : Path} (hdepth : Shallow (kids a (recursed root)) n rel) :
    q ∈ rel :: below (kids a (recursed root)) n rel ↔
      ∃ r, Leads (kids a (recursed root)) rel r ∧ q = rel ++ r := by
  rw [List.mem_cons,mem_below]
  constructor
  · rintro (rfl | ⟨r,_,_,hr,rfl⟩)
    · exact ⟨[],trivial,(List.append_nil _).symm⟩
    · exact ⟨r,hr,rfl⟩
  · rintro ⟨r,hr,rfl⟩
    by_cases hnil : r = []
    · exact .inl (by rw [hnil,List.append_nil])
    · exact .inr ⟨r,hnil,hdepth r hr,hr,rfl⟩

/-- All below `p` can be looked at, and all directories can be listed. -/
structure Open (a : Answers) (fs : FileSystem) (root : Str) (p : Path) : Prop where
  listed : ∀ r, fs.isDir (p ++ r) → (a.opendir (spelled root r)).isSome
  seen : ∀ r, fs.has (p ++ r) → (a.lstat (spelled root r)).isSome

theorem shown_concat {c : Name} : Shown a root (rel ++ [c]) ↔ Shown a root rel ∧
    (∃ st, a.lstat (spelled root rel) = some st ∧ st.kind = .dir) ∧
      ∃ names, a.opendir (spelled root rel) = some names ∧ c ∈ names := by
  constructor
  · intro h
    refine ⟨fun q d rest heq => h q d (rest ++ [c]) (by rw [heq]; simp),h rel c [] rfl⟩
  · rintro ⟨hrel,hlast⟩ q d rest heq
    rcases List.eq_nil_or_concat' rest with rfl | ⟨r,e,rfl⟩
    · obtain ⟨rfl,hlist⟩ := List.append_inj' heq rfl
      obtain rfl : c = d := by simpa using hlist
      exact hlast
    · rw [← List.cons_append,← List.append_assoc] at heq
      exact hrel q d r (List.append_inj' heq rfl).1

theorem isDir_of_kind {n : Node} (h : Kind.dir = n.kind) : n.isDir = true := by
  cases n with
  | dir m => rfl
  | file content m => cases h
  | link t => cases h

section Places

variable {p : Path} (h : a.Shows fs place) (hnul : NulFree root) (hplace : place root = some p)
  (hroot : fs.isDir p) (hdir : ∃ st, a.lstat root = some st ∧ st.kind = .dir)

include h hnul

theorem proper_of_shown (hdir : ∃ st, a.lstat root = some st ∧ st.kind = .dir)
    (hrel : Shown a root rel) : NulFree (spelled root rel) :=
  nulFree_spelled_proper hnul
    (proper_of_leads h straight_recursed ((leads_shown (efdL_d.mpr hdir)).mpr hrel))

include hplace hroot hdir

theorem place_shown (hrel : Shown a root rel)
    (hd : ∃ st, a.lstat (spelled root rel) = some st ∧ st.kind = .dir) :
    place (spelled root rel) = some (p ++ rel) ∧ fs.isDir (p ++ rel) := by
  induction rel using List.reverseRecOn with
  | nil =>
    rw [spelled_nil,List.append_nil]
    exact ⟨hplace,hroot⟩
  | append_singleton rel c ih =>
    obtain ⟨hrel,habove,names,hopen,hc⟩ := shown_concat.mp hrel
    obtain ⟨hat,hatdir⟩ := ih hrel habove
    obtain ⟨st,hst,hkind⟩ := hd
    rw [spelled_concat] at hst ⊢
    obtain ⟨n,hn,hnkind,hgoes⟩ := h.entry (proper_of_shown h hnul hdir hrel)
      ((h.names hopen).2 c hc) hat hatdir hst
    rw [hkind] at hnkind
    have hnd := isDir_of_kind hnkind
    rw [← List.append_assoc]
    refine ⟨hgoes hnd,?_⟩
    unfold FileSystem.isDir
    rw [hn]
    exact hnd

theorem dir_shown (hopen : Open a fs root p) (hrel : Shown a root rel) (hreldir : fs.isDir (p ++ rel)) :
    ∃ st, a.lstat (spelled root rel) = some st ∧ st.kind = .dir := by
  rcases List.eq_nil_or_concat' rel with rfl | ⟨rel,c,rfl⟩
  · rwa [spelled_nil]
  · obtain ⟨st,hst⟩ := Option.isSome_iff_exists.mp (hopen.seen _ (FileSystem.has_of_isDir hreldir))
    refine ⟨st,hst,?_⟩
    obtain ⟨hrel,habove,names,hnames,hc⟩ := shown_concat.mp hrel
    obtain ⟨hat,hatdir⟩ := place_shown h hnul hplace hroot hdir hrel habove
    rw [spelled_concat] at hst
    obtain ⟨n,hn,hkind,_⟩ := h.entry (proper_of_shown h hnul hdir hrel) ((h.names hnames).2 c hc) hat
      hatdir hst
    obtain ⟨mode,hmode⟩ := FileSystem.isDir_iff.mp hreldir
    rw [← List.append_assoc,hn] at hmode
    rw [hkind,Option.some.inj hmode]
    rfl

/-- Where nothing is closed the tree is all that the file system has there. -/
theorem shown_iff (hopen : Open a fs root p) : Shown a root rel ↔ fs.has (p ++ rel) := by
  induction rel using List.reverseRecOn with
  | nil =>
    rw [List.append_nil]
    refine iff_of_true (fun q c rest heq => by simp at heq) (FileSystem.has_of_isDir hroot)
  | append_singleton rel c ih =>
    rw [shown_concat]
    constructor
    · rintro ⟨hrel,hd,names,hnames,hc⟩
      obtain ⟨hat,_⟩ := place_shown h hnul hplace hroot hdir hrel hd
      obtain ⟨p',hp',_,hperm⟩ := h.opendir hnames
      obtain rfl := Option.some.inj (hat.symm.trans hp')
      rw [← List.append_assoc]
      exact FileSystem.mem_children.mp (hperm.subset hc)
    · intro hhas
      rw [← List.append_assoc] at hhas
      have hreldir : fs.isDir (p ++ rel) := (fs.parent _ c hhas).1
      have hrel := ih.mpr (FileSystem.has_of_isDir hreldir)
      have hd := dir_shown h hnul hplace hroot hdir hopen hrel hreldir
      obtain ⟨names,hnames⟩ := Option.isSome_iff_exists.mp (hopen.listed rel hreldir)
      obtain ⟨hat,_⟩ := place_shown h hnul hplace hroot hdir hrel hd
      obtain ⟨p',hp',_,hperm⟩ := h.opendir hnames
      obtain rfl := Option.some.inj (hat.symm.trans hp')
      exact ⟨hrel,hd,names,hnames,hperm.symm.subset (FileSystem.mem_children.mpr hhas)⟩

end Places

theorem exact_leaf (hdir : DirIterator.efdL a root ≠ .d) (m : CountMap) :
    Exact a root m (one a root) (Function.update m root (one a root)) [[]] := by
  have hone := @numbers_one a root []
  rw [spelled_nil] at hone
  refine ⟨fun rel => by rw [shown_leaf hdir,List.mem_singleton],by simp,hone,fun rel hrel => ?_,
    fun x hx => ?_⟩
  · obtain rfl := List.mem_singleton.mp hrel
    rw [spelled_nil,Function.update_self]
    simpa using hone
  · have hne := hx [] List.mem_cons_self
    rw [spelled_nil] at hne
    exact Function.update_of_ne hne _ _

theorem exact_stored {n : Nat} {m m' : CountMap} (h : a.Shows fs place)
    (hdir : DirIterator.efdL a root = .d) (hdepth : Shallow (kids a (recursed root)) n [])
    (hmap : Stored a root [] m m') :
    Exact a root m (total a root ([] :: below (kids a (recursed root)) n [])) m'
      ([] :: below (kids a (recursed root)) n []) := by
  have hmem : ∀ rel, rel ∈ [] :: below (kids a (recursed root)) n [] ↔
      Leads (kids a (recursed root)) [] rel := by
    intro rel
    rw [mem_nodes hdepth]
    simp
  refine ⟨fun rel => (hmem rel).trans (leads_shown hdir),nodup_nodes h,numbers_total _,
    fun rel hrel => ?_,fun x hx => hmap.kept x fun r hr => ?_⟩
  · have hleads := (hmem rel).mp hrel
    have hbelow : Shallow (kids a (recursed root)) n rel := by
      intro r hr
      have hlen := hdepth (rel ++ r) (leads_append.mpr ⟨hleads,hr⟩)
      rw [List.length_append] at hlen
      omega
    have htotal := hmap.stored hleads hbelow
    rw [List.nil_append] at htotal
    rw [htotal]
    refine (numbers_total _).perm ((List.perm_ext_iff_of_nodup (nodup_nodes h)
      ((nodup_nodes h).filter _)).mpr fun q => ?_)
    rw [mem_nodes hbelow,List.mem_filter,hmem,decide_eq_true_iff]
    constructor
    · rintro ⟨r,hr,rfl⟩
      exact ⟨leads_append.mpr ⟨hleads,hr⟩,List.prefix_append _ _⟩
    · rintro ⟨hq,r,rfl⟩
      exact ⟨r,(leads_append.mp hq).2,rfl⟩
  · exact hx r ((hmem r).mpr hr)

/-- The count ends, with the numbers of the tree at the root and, in the map, with those of the tree at
each of its nodes; where nothing is closed that is the tree the file system has there. A root that is a
directory has an absolute path without NUL. -/
theorem counts_exact (h : a.Shows fs place)
    (hroot : ∀ st, a.lstat root = some st → st.kind = .dir → absolute root ∧ NulFree root) :
    ∃ l least, ∀ turns depth, least ≤ turns → least ≤ depth → ∀ m, ∃ num m',
      countTotalStatsIntoMap a turns depth root m = some (num,m') ∧ Exact a root m num m' l ∧
      ∀ p, place root = some p → fs.isDir p → (∃ st, a.lstat root = some st ∧ st.kind = .dir) →
        Open a fs root p → ∀ rel, rel ∈ l ↔ fs.has (p ++ rel) := by
  by_cases hdir : DirIterator.efdL a root = .d
  · obtain ⟨st,hst,hkind⟩ := efdL_d.mp hdir
    obtain ⟨habs,hnul⟩ := hroot st hst hkind
    have hdepth : Shallow (kids a (recursed root)) fs.paths.length [] :=
      shallow_of_straight h hnul straight_recursed
    refine ⟨[] :: below (kids a (recursed root)) fs.paths.length [],
      (below (kids a (recursed root)) fs.paths.length []).length + fs.paths.length + 1,
      fun turns depth hturns hd m => ?_⟩
    obtain ⟨m',hcount,hmap⟩ := @count_eq a root fs.paths.length depth turns []
      (fun r hr => proper_of_leads h straight_recursed hr) (fun r => nodup_kids h) habs trivial hdepth
      (by omega) (fun _ => hdir) (by omega) m
    rw [spelled_nil] at hcount
    have hexact := exact_stored h hdir hdepth hmap
    refine ⟨_,m',hcount,hexact,fun p hp hpdir hd hopen rel => ?_⟩
    rw [hexact.nodes,shown_iff h hnul hp hpdir hd hopen]
  · refine ⟨[[]],1,fun turns depth _ hd m => ⟨one a root,Function.update m root (one a root),?_,
      exact_leaf hdir m,fun p _ _ hd => absurd (efdL_d.mpr hd) hdir⟩⟩
    obtain ⟨depth,rfl⟩ := Nat.exists_eq_add_of_le' hd
    exact count_leaf fun hefd => hdir (efd_dir.mp hefd)

/-- Where every longer path is taken for the same directory, there is no end. -/
theorem count_endless (habs : absolute root)
    (hall : ∀ y, (∃ st, a.lstat (root ++ y) = some st ∧ st.kind = .dir) ∧
      ∃ names, a.opendir (root ++ y) = some names ∧ names ≠ []) (turns depth : Nat) (y : Str)
    (m : CountMap) : countTotalStatsIntoMap a turns depth (root ++ y) m = none := by
  induction depth generalizing y m with
  | zero => rfl
  | succ depth ih =>
    obtain ⟨hdir,names,hopen,hne⟩ := hall y
    have hefd : (existsIsFileIsDir_ a (root ++ y)).1 = .dir := efd_dir.mpr (efdL_d.mpr hdir)
    have habs' : absolute (listed (root ++ y)).dir := by
      rw [absolute] at habs
      rw [absolute,listed,List.head?_append,habs,Option.some_or]
    have herror : (createIterator a (listed (root ++ y))).error = false := by
      rw [Bool.eq_false_iff,ne_eq,createIterator_error habs']
      simp [listed,hopen]
    rw [countTotalStatsIntoMap,hefd]
    simp only [herror,Bool.false_eq_true,if_false,Option.bind_eq_bind]
    cases turns with
    | zero => rfl
    | succ turns =>
      obtain ⟨d,ds,hkids⟩ : ∃ d ds, kids a (listed (root ++ y)) [] = d :: ds := by
        rw [← spelled_nil (root ++ y)] at hopen ⊢
        rw [kids_listed hopen]
        exact List.exists_cons_of_ne_nil (by simpa using hne)
      have hstacked := stacked_createIterator habs' hopen
      rw [hkids] at hstacked
      obtain ⟨it,hnext,hitem,_⟩ := hstacked.next (by simp)
      have hpath : it.handed.current = root ++ (y ++ slash :: d) := by
        rw [hitem]
        simp [itemOf,pathShown,listed,spelled]
      rw [whileNext,hnext]
      simp [countEntry,hpath,ih]

end Counts

def smallTree : FileSystem :=
  .ofEntries [([],.dir 0o755),([text ['r']],.dir 0o755),([text ['r'],text ['x']],.file [7] 0o644)]
    (by decide)

def smallAnswers : Answers := System.calm.toKernel.answers smallTree fun _ => true

def smallPlace (s : Str) : Option Path := (System.calm.follow smallTree s).toOption

/-- A path that goes on behind a NUL. -/
def nulRoot : Str := text ['/','r'] ++ [0]

theorem smallAnswers_nul (y : Str) :
    (∃ st, smallAnswers.lstat (nulRoot ++ y) = some st ∧ st.kind = .dir) ∧
      ∃ names, smallAnswers.opendir (nulRoot ++ y) = some names ∧ names ≠ [] := by
  have hcut : cstr (nulRoot ++ y) = cstr (text ['/','r']) := by
    rw [cstr_append_of_nul (by decide)]
    decide
  have hfollow : System.calm.toKernel.follow smallTree (nulRoot ++ y) =
      System.calm.toKernel.follow smallTree (text ['/','r']) := by
    simp only [Kernel.follow,hcut]
  have hglance : System.calm.toKernel.glance smallTree (nulRoot ++ y) =
      System.calm.toKernel.glance smallTree (text ['/','r']) := by
    simp only [Kernel.glance,Kernel.spot,hfollow,hcut]
  have hlstat : smallAnswers.lstat (nulRoot ++ y) = smallAnswers.lstat (text ['/','r']) := by
    simp only [smallAnswers,Kernel.answers,hglance]
  have hopendir : smallAnswers.opendir (nulRoot ++ y) = smallAnswers.opendir (text ['/','r']) := by
    simp only [smallAnswers,Kernel.answers,hfollow]
  rw [hlstat,hopendir]
  exact ⟨⟨Node.stat (.dir 0o755),by decide +kernel,rfl⟩,[text ['x']],by decide +kernel,by decide⟩

theorem counts_exact_small :
    ∃ l least, ∀ turns depth, least ≤ turns → least ≤ depth → ∀ m, ∃ num m',
      countTotalStatsIntoMap smallAnswers turns depth (text ['/','r']) m = some (num,m') ∧
      Exact smallAnswers (text ['/','r']) m num m' l ∧
      ∀ p, smallPlace (text ['/','r']) = some p → smallTree.isDir p →
        (∃ st, smallAnswers.lstat (text ['/','r']) = some st ∧ st.kind = .dir) →
        Open smallAnswers smallTree (text ['/','r']) p → ∀ rel, rel ∈ l ↔ smallTree.has (p ++ rel) :=
  counts_exact (System.calm.toKernel.answers_shows smallTree _) fun _ _ _ => by decide

theorem shown_relative {rel : Path} :
    Shown smallAnswers (text ['r']) rel ↔ rel = [] ∨ rel = [text ['x']] := by
  have hopen : smallAnswers.opendir (spelled (text ['r']) []) = some [text ['x']] := by decide +kernel
  have hroot : ∃ st, smallAnswers.lstat (spelled (text ['r']) []) = some st ∧ st.kind = .dir :=
    ⟨Node.stat (.dir 0o755),by decide +kernel,rfl⟩
  have hfile : smallAnswers.lstat (spelled (text ['r']) [text ['x']]) =
      some (Node.stat (.file [7] 0o644)) := by decide +kernel
  constructor
  · intro h
    rcases rel with _ | ⟨c,rel⟩
    · exact .inl rfl
    · obtain ⟨_,names,hnames,hc⟩ := h [] c rel rfl
      rw [hopen] at hnames
      obtain rfl := Option.some.inj hnames
      obtain rfl := List.mem_singleton.mp hc
      rcases rel with _ | ⟨d,rel⟩
      · exact .inr rfl
      · obtain ⟨⟨st,hst,hkind⟩,_⟩ := h [text ['x']] d rel rfl
        rw [hfile] at hst
        obtain rfl := Option.some.inj hst
        cases hkind
  · rintro (rfl | rfl)
    · intro q c rest heq
      simp at heq
    · exact shown_concat.mpr ⟨fun q c rest heq => by simp at heq,hroot,_,hopen,List.mem_singleton.mpr rfl⟩

/-- Of a directory with a relative path only itself is counted. With a NUL in its path there is no end. -/
theorem counts_relative :
    (¬ ∃ l least, ∀ turns depth, least ≤ turns → least ≤ depth → ∀ m, ∃ num m',
      countTotalStatsIntoMap smallAnswers turns depth (text ['r']) m = some (num,m') ∧
      Exact smallAnswers (text ['r']) m num m' l) ∧
    (countTotalStatsIntoMap smallAnswers 2 2 (text ['r']) fun _ => 0).map Prod.fst = some ⟨0,1,0⟩ ∧
    ∀ turns depth m, countTotalStatsIntoMap smallAnswers turns depth nulRoot m = none := by
  have hrun : ∀ turns depth m, countTotalStatsIntoMap smallAnswers turns (depth+1) (text ['r']) m =
      some (⟨0,1,0⟩,Function.update m (text ['r']) ⟨0,1,0⟩) := by
    intro turns depth m
    have hefd : (existsIsFileIsDir_ smallAnswers (text ['r'])).1 = .dir := by decide +kernel
    have herror : (createIterator smallAnswers (listed (text ['r']))).error = true := by
      decide +kernel
    rw [countTotalStatsIntoMap,hefd]
    simp only [herror,if_true]
    rfl
  refine ⟨?_,congrArg (Option.map Prod.fst) (hrun 2 1 fun _ => 0),fun turns depth m => ?_⟩
  · rintro ⟨l,least,hall⟩
    obtain ⟨num,m',hcount,hexact⟩ := hall least (least+1) le_rfl (Nat.le_succ least) fun _ => 0
    rw [hrun] at hcount
    obtain ⟨rfl,_⟩ := Prod.mk.inj (Option.some.inj hcount)
    have hperm : l.Perm [[],[text ['x']]] :=
      (List.perm_ext_iff_of_nodup hexact.nodup (by decide)).mpr fun rel => by
        rw [hexact.nodes,shown_relative]
        simp
    have hfiles := hexact.result.files
    rw [hperm.countP_eq] at hfiles
    revert hfiles
    decide +kernel
  · have hend := count_endless (by decide) smallAnswers_nul turns depth [] m
    rwa [List.append_nil] at hend

end Totals
end RootHelper
