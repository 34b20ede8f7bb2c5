import RootHelper.Traversals

/-!
What an iteration over a directory hands out: everything that is below it and can be listed, once and
behind the directory it is in, whatever the order of the listings and the form of the paths.
-/

set_option autoImplicit false

namespace RootHelper
open Posix Preorder DirIterator

def unfiltered (root : Str) (mode : DirIterator.IterationMode)
    (recursiveListing : DirIterator.ListingMode) (sortCurrentLevelByName : Bool) : DirOptions :=
  ⟨root,mode,true,recursiveListing,sortCurrentLevelByName,fun _ => true⟩

section Statements

variable (a : Answers) (fs : FileSystem) (root : Str) (p : Path)

def RealDir (rel : Path) : Prop := ∃ st, a.lstat (spelled root rel) = some st ∧ st.kind = .dir

def OpenDir (rel : Path) : Prop := (a.opendir (spelled root rel)).isSome ∧ (rel ≠ [] → RealDir a root rel)

/-- It is in the tree below the root, and no directory above it is closed. -/
structure Descendant (rel : Path) : Prop where
  ne_nil : rel ≠ []
  there : fs.has (p ++ rel)
  above : ∀ q c rest, rel = q ++ c :: rest → OpenDir a root q

def pathIn (mode : DirIterator.IterationMode) (rel : Path) : Str :=
  match mode with
  | .FULL => spelled root rel
  | .RELATIVE_WITHOUT_BASE => joined rel
  | .RELATIVE_INCL_BASE => joined (getFilenameFromFullPath root :: rel)

/-- The name is the one the path ends in. -/
structure Suits (mode : DirIterator.IterationMode) (rel : Path) (i : Current) : Prop where
  path : ¬ endsWithSlash root → i.current = pathIn root mode rel
  name : rel.getLast? = some i.currentName
  belongs : ∃ x, i.current = x ++ i.currentName ∧ (x = [] ∨ endsWithSlash x)

/-- `@` is for the directories without entries. -/
def Marked (rel : Path) (i : Current) : Prop :=
  i.currentEfd = .empty ↔ RealDir a root rel ∧ a.opendir (spelled root rel) = some []

end Statements

section Tree

variable {a : Answers} {fs : FileSystem} {place : Str → Option Path} {root : Str} {p rel : Path}
  {mode : DirIterator.IterationMode} {sorts : Bool}

theorem place_of_openDir (h : a.Shows fs place) (hroot : NulFree root) (hp : place root = some p)
    (hall : ∀ q, q <+: rel → OpenDir a root q) (hhas : fs.has (p ++ rel)) :
    place (spelled root rel) = some (p ++ rel) ∧ fs.isDir (p ++ rel) := by
  induction rel using List.reverseRecOn with
  | nil =>
    have hsame := spelled_nil root
    obtain ⟨names,hopen⟩ := Option.isSome_iff_exists.mp (hall [] List.prefix_rfl).1
    obtain ⟨q,hq,hdir,_⟩ := h.opendir hopen
    rw [hsame] at hq
    obtain rfl := Option.some.inj (hp.symm.trans hq)
    rw [hsame,List.append_nil]
    exact ⟨hp,hdir⟩
  | append_singleton rel c ih =>
    rw [← List.append_assoc] at hhas ⊢
    have hproper := FileSystem.proper_of_has hhas
    have habove : fs.has (p ++ rel) := FileSystem.has_of_above hhas (List.prefix_append _ _)
    obtain ⟨hplace,hdir⟩ := ih (fun q hq => hall q (hq.trans (List.prefix_append _ _))) habove
    obtain ⟨st,hst,hkind⟩ := (hall _ List.prefix_rfl).2 (by simp)
    rw [spelled_concat] at hst ⊢
    obtain ⟨n,hn,hnkind,hleads⟩ := h.entry (nulFree_spelled hroot habove) hproper hplace hdir hst
    have hnd : n.isDir := by
      rw [hkind] at hnkind
      cases n with
      | dir m => rfl
      | file content m => cases hnkind
      | link t => cases hnkind
    refine ⟨hleads hnd,?_⟩
    rw [FileSystem.isDir,hn]
    exact hnd

theorem pushed_unfiltered (listing : DirIterator.ListingMode) (names : List Name) :
    (pushed (unfiltered root mode listing sorts) names).Perm names := by
  unfold pushed unfiltered
  simp only [List.filter_true]
  split_ifs
  · exact List.perm_insertionSort _ _
  · exact List.Perm.refl _

theorem visited_iff_realDir :
    visited a (unfiltered root mode .RECURSIVE sorts) (spelled root rel) ↔ RealDir a root rel := by
  rw [RealDir,← efdL_d,visited]
  exact decide_eq_true_iff

theorem mem_kids_recursive {c : Name} : c ∈ kids a (unfiltered root mode .RECURSIVE sorts) rel ↔
    OpenDir a root rel ∧ ∃ names, a.opendir (spelled root rel) = some names ∧ c ∈ names := by
  have hwhen : (rel = [] ∨ visited a (unfiltered root mode .RECURSIVE sorts) (spelled root rel)) ↔
      (rel ≠ [] → RealDir a root rel) := by
    rw [visited_iff_realDir]
    tauto
  have hdir : (unfiltered root mode .RECURSIVE sorts).dir = root := rfl
  rw [kids,hdir,OpenDir]
  by_cases hd : rel ≠ [] → RealDir a root rel
  · rw [if_pos (hwhen.mpr hd)]
    cases hopen : a.opendir (spelled root rel) with
    | none => simp
    | some names =>
      simp only [Option.elim,List.mem_reverse,(pushed_unfiltered _ names).mem_iff]
      simpa using fun _ => hd
  · rw [if_neg fun hw => hd (hwhen.mp hw)]
    simp [hd]

theorem leads_recursive (h : a.Shows fs place) (hroot : NulFree root) (hp : place root = some p)
    (hopen : OpenDir a root []) : Leads (kids a (unfiltered root mode .RECURSIVE sorts)) [] rel ↔
      fs.has (p ++ rel) ∧ ∀ q c rest, rel = q ++ c :: rest → OpenDir a root q := by
  induction rel using List.reverseRecOn with
  | nil =>
    refine iff_of_true trivial ⟨?_,fun q c rest heq => by simp at heq⟩
    obtain ⟨names,hnames⟩ := Option.isSome_iff_exists.mp hopen.1
    obtain ⟨q,hq,hdir,_⟩ := h.opendir hnames
    rw [spelled_nil] at hq
    obtain rfl := Option.some.inj (hp.symm.trans hq)
    rw [List.append_nil]
    exact FileSystem.has_of_isDir hdir
  | append_singleton rel c ih =>
    rw [leads_concat,ih,List.nil_append,mem_kids_recursive]
    constructor
    · rintro ⟨⟨hhas,habove⟩,hlist,names,hnames,hc⟩
      have hall : ∀ q, q <+: rel → OpenDir a root q := by
        rintro q ⟨r,rfl⟩
        cases r with
        | nil => rwa [List.append_nil] at hlist
        | cons d r => exact habove q d r rfl
      obtain ⟨hplace,hdir⟩ := place_of_openDir h hroot hp hall hhas
      obtain ⟨q,hq,_,hperm⟩ := h.opendir hnames
      obtain rfl := Option.some.inj (hplace.symm.trans hq)
      refine ⟨?_,fun q d rest heq => ?_⟩
      · rw [← List.append_assoc]
        exact FileSystem.mem_children.mp (hperm.subset hc)
      · refine hall q ?_
        rcases List.eq_nil_or_concat rest with rfl | ⟨r,e,rfl⟩
        · exact ⟨[],by simpa using (List.append_inj' heq rfl).1.symm⟩
        · rw [List.concat_eq_append,← List.cons_append,← List.append_assoc] at heq
          exact ⟨d :: r,(List.append_inj' heq rfl).1.symm⟩
    · rintro ⟨hhas,habove⟩
      have hrel : fs.has (p ++ rel) := by
        rw [← List.append_assoc] at hhas
        exact FileSystem.has_of_above hhas (List.prefix_append _ _)
      have hlist := habove rel c [] rfl
      have hbelow : ∀ q d rest, rel = q ++ d :: rest → OpenDir a root q := fun q d rest heq =>
        habove q d (rest ++ [c]) (by rw [heq]; simp)
      have hall : ∀ q, q <+: rel → OpenDir a root q := by
        rintro q ⟨r,rfl⟩
        cases r with
        | nil => rwa [List.append_nil] at hlist
        | cons d r => exact hbelow q d r rfl
      obtain ⟨hplace,hdir⟩ := place_of_openDir h hroot hp hall hrel
      obtain ⟨names,hnames⟩ := Option.isSome_iff_exists.mp hlist.1
      obtain ⟨q,hq,_,hperm⟩ := h.opendir hnames
      obtain rfl := Option.some.inj (hplace.symm.trans hq)
      refine ⟨⟨hrel,hbelow⟩,hlist,names,hnames,hperm.symm.subset (FileSystem.mem_children.mpr ?_)⟩
      rwa [List.append_assoc]

theorem shallow_recursive (h : a.Shows fs place) (hroot : NulFree root) (hp : place root = some p)
    (hopen : OpenDir a root []) :
    Shallow (kids a (unfiltered root mode .RECURSIVE sorts)) (fs.paths.map List.length).sum [] := by
  intro rel hrel
  have hhas := ((leads_recursive h hroot hp hopen).mp hrel).1
  have hmem := List.mem_map_of_mem (f := List.length) ((fs.mem_paths _).mpr hhas)
  have hle := List.le_sum_of_mem hmem
  rw [List.length_append] at hle
  omega

theorem leads_plain {names : List Name} (hopen : a.opendir root = some names) :
    Leads (kids a (unfiltered root mode .PLAIN sorts)) [] rel ↔ rel = [] ∨ ∃ c ∈ names, rel = [c] := by
  have hleaf : ∀ c, kids a (unfiltered root mode .PLAIN sorts) [c] = [] := fun c => by
    rw [kids,if_neg (by simp [visited,unfiltered])]
  have hnames : ∀ c, c ∈ kids a (unfiltered root mode .PLAIN sorts) [] ↔ c ∈ names := fun c => by
    have hsame : spelled (unfiltered root mode .PLAIN sorts).dir [] = root := spelled_nil root
    rw [kids,if_pos (.inl rfl),hsame,hopen]
    simp only [Option.elim,List.mem_reverse,(pushed_unfiltered _ names).mem_iff]
  cases rel with
  | nil => simp [Leads]
  | cons c rel =>
    cases rel with
    | nil => simp [Leads,hnames]
    | cons d rel => simp [Leads,hleaf]

theorem rootLen_le (o : DirOptions) : rootLenOf o ≤ o.dir.length + 1 := by
  unfold rootLenOf
  split
  · have hle := List.length_take_le ((lastSlash o.dir).getD o.dir.length) o.dir
    rw [DirIterator.getParentDir,List.length_take]
    omega
  · exact Nat.le_refl _
  · exact Nat.zero_le _

theorem suits_item (habs : absolute root) {listing : DirIterator.ListingMode} (hne : rel ≠ []) :
    Suits root mode rel (itemOf a (unfiltered root mode listing sorts) rel) := by
  obtain ⟨r,c,rfl⟩ := (List.eq_nil_or_concat' rel).resolve_left hne
  refine ⟨fun hend => ?_,by simp [itemOf,unfiltered],?_⟩
  · cases mode with
    | FULL => rfl
    | RELATIVE_WITHOUT_BASE => exact drop_spelled root (r ++ [c])
    | RELATIVE_INCL_BASE =>
      obtain ⟨x,base,rfl,hbase⟩ : ∃ x base, root = x ++ slash :: base ∧ slash ∉ base := by
        cases hl : lastSlash root with
        | none => exact absurd (List.mem_of_mem_head? habs) (lastSlash_eq_none.mp hl)
        | some i =>
          obtain ⟨x,base,hx,_,hbase⟩ := lastSlash_eq_some hl
          exact ⟨x,base,hx,hbase⟩
      have hname : getFilenameFromFullPath (x ++ slash :: base) = base := by
        rw [getFilenameFromFullPath,lastSlash_append hbase]
        simp
      have hlen : rootLenOf (unfiltered (x ++ slash :: base) .RELATIVE_INCL_BASE listing sorts) =
          x.length + 1 := by
        simp [rootLenOf,unfiltered,DirIterator.getParentDir,lastSlash_append hbase]
      rw [itemOf,pathShown_eq_drop,hlen]
      simp only [pathIn,hname,unfiltered]
      rw [spelled,joined,List.flatMap_cons,List.cons_append,List.tail_cons,List.append_assoc,
        List.cons_append,← List.drop_drop,List.drop_left,List.drop_one,List.tail_cons]
  · have hle := rootLen_le (unfiltered root mode listing sorts)
    have hlen : rootLenOf (unfiltered root mode listing sorts) ≤ (spelled root r ++ [slash]).length := by
      have hdir : (unfiltered root mode listing sorts).dir = root := rfl
      rw [hdir] at hle
      simp only [spelled,List.length_append,List.length_singleton]
      omega
    refine ⟨(spelled root r ++ [slash]).drop (rootLenOf (unfiltered root mode listing sorts)),?_,?_⟩
    · simp only [itemOf,pathShown_eq_drop]
      have hspell : spelled (unfiltered root mode listing sorts).dir (r ++ [c]) =
          spelled root r ++ [slash] ++ c := by
        simp [unfiltered,spelled_concat]
      rw [hspell,List.drop_append_of_le_length hlen]
      simp [unfiltered]
    · rcases List.eq_nil_or_concat' (List.drop (rootLenOf (unfiltered root mode listing sorts))
          (spelled root r ++ [slash])) with hnil | ⟨y,b,hy⟩
      · exact .inl hnil
      · right
        have hlast := congrArg List.getLast? hy
        rw [List.getLast?_drop] at hlast
        rw [endsWithSlash,List.getLast?_drop]
        split_ifs with hover
        · rw [if_pos hover] at hlast
          simp at hlast
        · simp

theorem marked_item : Marked a root rel (itemOf a (unfiltered root mode .RECURSIVE sorts) rel) := by
  have hempty : ∀ names, pushed (unfiltered root mode .RECURSIVE sorts) names = [] ↔ names = [] :=
    fun names => by rw [← List.length_eq_zero_iff,(pushed_unfiltered _ names).length_eq,
      List.length_eq_zero_iff]
  have hefd : (itemOf a (unfiltered root mode .RECURSIVE sorts) rel).currentEfd =
      if visited a (unfiltered root mode .RECURSIVE sorts) (spelled root rel) ∧
        (a.opendir (spelled root rel)).map (pushed (unfiltered root mode .RECURSIVE sorts)) = some []
      then .empty else DirIterator.efdL a (spelled root rel) := rfl
  rw [Marked,hefd]
  cases hopen : a.opendir (spelled root rel) with
  | none => simp [efdL_ne_empty]
  | some names =>
    have hwhen : (visited a (unfiltered root mode .RECURSIVE sorts) (spelled root rel) ∧
        (some names).map (pushed (unfiltered root mode .RECURSIVE sorts)) = some []) ↔
          RealDir a root rel ∧ some names = some [] := by
      simp [visited_iff_realDir,hempty]
    rw [← hwhen]
    split_ifs with hcond
    · exact iff_of_true rfl hcond
    · exact iff_of_false (efdL_ne_empty a _) hcond

/-- Recursively all descendants come, each once and behind the directories above it, and otherwise the
children; each with its path in the form asked for and its name, and `@` for what is empty. -/
theorem iteration_right {names : List Name} (h : a.Shows fs place) (habs : absolute root)
    (hnul : NulFree root) (hp : place root = some p) (hopen : a.opendir root = some names)
    (mode : DirIterator.IterationMode) (sorts : Bool) :
    (∃ l items, Iterates a (createIterator a (unfiltered root mode .RECURSIVE sorts)) items ∧
      (∀ rel, rel ∈ l ↔ Descendant a fs root p rel) ∧ (l.Pairwise fun r r' => ¬ r' <+: r) ∧
      List.Forall₂ (fun rel i => Suits root mode rel i ∧ Marked a root rel i) l items) ∧
    ∃ l items, Iterates a (createIterator a (unfiltered root mode .PLAIN sorts)) items ∧
      (∀ rel, rel ∈ l ↔ ∃ c ∈ fs.children p, rel = [c]) ∧ l.Nodup ∧
      List.Forall₂ (Suits root mode) l items := by
  have hroot : OpenDir a root [] := ⟨by rw [spelled_nil,hopen]; rfl,fun hne => absurd rfl hne⟩
  constructor
  · have hdepth := @shallow_recursive a fs place root p mode sorts h hnul hp hroot
    refine ⟨below (kids a (unfiltered root mode .RECURSIVE sorts)) (fs.paths.map List.length).sum [],_,
      iterates_below habs hopen hdepth,fun rel => ?_,
      pairwise_below fun rel _ => nodup_kids h,?_⟩
    · rw [mem_below]
      constructor
      · rintro ⟨r,hne,_,hr,rfl⟩
        obtain ⟨hhas,habove⟩ := (leads_recursive h hnul hp hroot).mp hr
        exact ⟨hne,hhas,habove⟩
      · intro hd
        have hr := (@leads_recursive a fs place root p rel mode sorts h hnul hp hroot).mpr
          ⟨hd.there,hd.above⟩
        exact ⟨rel,hd.ne_nil,hdepth rel hr,hr,rfl⟩
    · rw [List.forall₂_map_right_iff]
      refine List.forall₂_same.mpr fun rel hrel => ?_
      obtain ⟨r,hne,_,_,rfl⟩ := mem_below.mp hrel
      exact ⟨suits_item habs hne,marked_item⟩
  · have hplain : ∀ rel, Leads (kids a (unfiltered root mode .PLAIN sorts)) [] rel →
        rel.length ≤ 1 := fun rel hrel => by
      rcases (leads_plain hopen).mp hrel with rfl | ⟨c,_,rfl⟩ <;> simp
    refine ⟨below (kids a (unfiltered root mode .PLAIN sorts)) 1 [],_,
      iterates_below habs hopen hplain,fun rel => ?_,?_,?_⟩
    · obtain ⟨q,hq,_,hperm⟩ := h.opendir hopen
      obtain rfl := Option.some.inj (hp.symm.trans hq)
      rw [mem_below]
      constructor
      · rintro ⟨r,hne,_,hr,rfl⟩
        obtain ⟨c,hc,rfl⟩ := ((leads_plain hopen).mp hr).resolve_left hne
        exact ⟨c,hperm.subset hc,rfl⟩
      · rintro ⟨c,hc,rfl⟩
        exact ⟨[c],by simp,by simp,(leads_plain hopen).mpr (.inr ⟨c,hperm.symm.subset hc,rfl⟩),rfl⟩
    · refine (pairwise_below fun rel _ => nodup_kids h).imp ?_
      rintro r r' hne rfl
      exact hne List.prefix_rfl
    · rw [List.forall₂_map_right_iff]
      refine List.forall₂_same.mpr fun rel hrel => ?_
      obtain ⟨r,hne,_,_,rfl⟩ := mem_below.mp hrel
      exact suits_item habs hne

end Tree

/-- The file "/r/d/x", in a directory that cannot be listed. -/
def closedTree : FileSystem :=
  .ofEntries [([],.dir 0o755),([text ['r']],.dir 0o755),([text ['r'],text ['d']],.dir 0o311),
    ([text ['r'],text ['d'],text ['x']],.file [] 0o644)] (by decide)

def closedAnswers : Answers :=
  System.calm.toKernel.answers closedTree fun s => s ≠ text ['/','r','/','d']

theorem iteration_right_closed :
    (∃ l items, Iterates closedAnswers (createIterator closedAnswers
        (unfiltered (text ['/','r']) .RELATIVE_INCL_BASE .RECURSIVE true)) items ∧
      (∀ rel, rel ∈ l ↔ Descendant closedAnswers closedTree (text ['/','r']) [text ['r']] rel) ∧
      (l.Pairwise fun r r' => ¬ r' <+: r) ∧
      List.Forall₂ (fun rel i => Suits (text ['/','r']) .RELATIVE_INCL_BASE rel i ∧
        Marked closedAnswers (text ['/','r']) rel i) l items) ∧
    ∃ l items, Iterates closedAnswers (createIterator closedAnswers
        (unfiltered (text ['/','r']) .RELATIVE_INCL_BASE .PLAIN true)) items ∧
      (∀ rel, rel ∈ l ↔ ∃ c ∈ closedTree.children [text ['r']], rel = [c]) ∧ l.Nodup ∧
      List.Forall₂ (Suits (text ['/','r']) .RELATIVE_INCL_BASE) l items :=
  iteration_right (System.calm.toKernel.answers_shows closedTree _) (by decide) (by decide)
    (by decide +kernel) (by decide +kernel : closedAnswers.opendir (text ['/','r']) = some [text ['d']])
    .RELATIVE_INCL_BASE true

/-- What is in a closed directory does not come. -/
theorem iteration_closed : closedTree.has [text ['r'],text ['d'],text ['x']] ∧
    Iterates closedAnswers
      (createIterator closedAnswers (unfiltered (text ['/','r']) .FULL .RECURSIVE false))
      [⟨text ['/','r','/','d'],text ['d'],.d⟩] := by
  have hstack : (createIterator closedAnswers (unfiltered (text ['/','r']) .FULL .RECURSIVE false)).S =
      [text ['/','r','/','d']] := by
    decide +kernel
  have hturn : (DirIterator.next closedAnswers
      (createIterator closedAnswers (unfiltered (text ['/','r']) .FULL .RECURSIVE false))).map
        (fun it => (it.handed,it.S)) = some (⟨text ['/','r','/','d'],text ['d'],.d⟩,[]) := by
    decide +kernel
  obtain ⟨it,hnext,hleft⟩ := Option.map_eq_some_iff.mp hturn
  obtain ⟨hhanded,hempty⟩ := Prod.mk.inj hleft
  refine ⟨by decide +kernel,_,it,.next hstack hnext (.start it),?_,?_⟩
  · rw [DirIterator.next,hempty]
  · rw [hhanded]
    rfl

end RootHelper
