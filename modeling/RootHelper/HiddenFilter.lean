import RootHelper.NamedTrees

/-!
Hashing a directory without what is hidden: what each entry contributes with the option and without
it, and which names the pattern loses on the way.
-/

set_option autoImplicit false

namespace RootHelper
open Posix

section Contributions

variable (h : HashFunctions) (v : View) (filePath : Str) (algo dirHashOpts : Byte)

/-- What an iteration hands out is taken into account. -/
def contributes (i : Current) : Bool :=
  if i.currentEfd = .file then !passedOver dirHashOpts i.currentName
  else withNames dirHashOpts && !(ignoreEmptyDirs dirHashOpts && i.currentEfd = .empty)

/-- With names what the hash function is fed, and by content what goes into the vector. -/
def contribution (i : Current) : Str × Option Str :=
  (i.current,if withNames dirHashOpts then some (named v filePath dirHashOpts i)
    else (rh_computeHash h v (pathConcat filePath i.current) algo true [] true).output)

def contributions (it : readdirIterator) : List (Str × Option Str) :=
  ((it.items v).filter (contributes dirHashOpts)).map (contribution h v filePath algo dirHashOpts)

/-- What is hashed of them: all of it with names, and by content the digests in their order. -/
def streamOf (cs : List (Str × Option Str)) : Option (Option Str) :=
  if withNames dirHashOpts then some (some (cs.flatMap fun c => c.2.getD []))
  else some (((cs.map Prod.snd).foldl (HashVector.turn (hashSize algo)) (some newHashes)).map
    fun x => sortHashes (hashSize algo) x.hashes)

variable {h v filePath algo dirHashOpts} {it : readdirIterator}

theorem named_of_not_contributes (hnames : withNames dirHashOpts = true) {i : Current}
    (hi : contributes dirHashOpts i = false) : named v filePath dirHashOpts i = [] := by
  unfold contributes at hi
  unfold named
  split_ifs at hi ⊢ with hfile hpass hempty
  · rfl
  · simp [hpass] at hi
  · rfl
  · simp [hnames] at hi
    simp [hi] at hempty

theorem named_of_contributes {i : Current} (hi : contributes dirHashOpts i = true) :
    named v filePath dirHashOpts i =
      (if i.currentEfd = .file then fileContent v (pathConcat filePath i.current) else []) ++ i.current := by
  unfold contributes at hi
  unfold named
  split_ifs at hi ⊢ with hfile hpass hempty
  · simp [hpass] at hi
  · rfl
  · simp [hempty] at hi
  · rfl

theorem dirStream_contributions (hit : dirIterator v filePath dirHashOpts = some it) :
    dirStream h v filePath algo dirHashOpts =
      streamOf algo dirHashOpts (contributions h v filePath algo dirHashOpts it) := by
  cases hnames : withNames dirHashOpts with
  | true =>
    rw [streamOf,if_pos hnames,dirStream_names hit hnames,contributions,List.flatMap_map]
    refine congrArg (fun s => some (some s)) ?_
    induction it.items v with
    | nil => rfl
    | cons i is ih =>
      cases hi : contributes dirHashOpts i with
      | true =>
        rw [List.filter_cons_of_pos hi,List.flatMap_cons,List.flatMap_cons,ih,contribution,if_pos hnames]
        rfl
      | false =>
        rw [List.filter_cons_of_neg (by rw [hi]; exact Bool.false_ne_true),List.flatMap_cons,
          named_of_not_contributes hnames hi,List.nil_append,ih]
  | false =>
    have hfiles : (it.items v).filter (contributes dirHashOpts) = filesHashed v dirHashOpts it := by
      refine List.filter_congr fun i _ => ?_
      unfold contributes
      split_ifs with hfile
      · simp [hfile]
      · simp [hfile,hnames]
    have hno : ¬ withNames dirHashOpts = true := by rw [hnames]; exact Bool.false_ne_true
    rw [streamOf,if_neg hno,dirStream_contents hit hnames,contributions,hfiles,List.map_map]
    refine congrArg (fun l => some (Option.map _ (List.foldl _ _ l))) (List.map_congr_left fun i _ => ?_)
    exact (if_neg hno).symm

end Contributions

/-- The option for hidden files taken out. -/
def withHidden (dirHashOpts : Byte) : Byte := dirHashOpts &&& 251

theorem withHidden_flags (dirHashOpts : Byte) :
    withNames (withHidden dirHashOpts) = withNames dirHashOpts ∧
    ignoreThumbsFiles (withHidden dirHashOpts) = ignoreThumbsFiles dirHashOpts ∧
    ignoreUnixHiddenFiles (withHidden dirHashOpts) = false ∧
    ignoreEmptyDirs (withHidden dirHashOpts) = ignoreEmptyDirs dirHashOpts := by
  have hbit : ∀ n, (withHidden dirHashOpts).toNat.testBit n =
      (dirHashOpts.toNat.testBit n && (251 : Nat).testBit n) := by
    intro n
    rw [withHidden,UInt8.toNat_and,Nat.testBit_and]
    rfl
  simp only [withNames,ignoreThumbsFiles,ignoreUnixHiddenFiles,ignoreEmptyDirs,b0,b1,b2,hbit]
  simp [Nat.testBit]

/-- No component starts with a dot. -/
def shown (current : Str) : Bool := (components current).all fun c => c.head? ≠ some dot

/-- The pattern takes each component. -/
def matched (current : Str) : Bool := (components current).all visible

theorem head_of_visible {c : Name} (hc : visible c) : c.head? ≠ some dot := by
  match c with
  | [] => cases hc
  | [_] => cases hc
  | b :: _ :: _ =>
    simp only [visible,Bool.and_eq_true,decide_eq_true_eq] at hc
    simpa using hc.1

theorem shown_of_matched {current : Str} (hm : matched current) : shown current := by
  rw [shown,List.all_eq_true]
  intro c hc
  exact decide_eq_true (head_of_visible (List.all_eq_true.mp hm c hc))

def ListsNames (v : View) : Prop := ∀ s names, v.opendir s = some names → ∀ c ∈ names, ProperName c

theorem components_joined {rel : Path} (hrel : ∀ c ∈ rel, ProperName c) :
    components (joined rel) = rel := by
  by_cases htop : rel = []
  · subst htop
    rfl
  · rw [← components_slash_cons,slash_joined htop,components_flatMap hrel]

theorem flatMap_ite {α β : Type} (p : α → Bool) (f : α → List β) (l : List α) :
    l.flatMap (fun a => if p a then f a else []) = (l.filter p).flatMap f := by
  induction l with
  | nil => rfl
  | cons a l ih =>
    rw [List.flatMap_cons,ih]
    cases hp : p a with
    | true => rw [List.filter_cons_of_pos hp,List.flatMap_cons,if_pos rfl]
    | false => rw [List.filter_cons_of_neg (by simp [hp]),if_neg Bool.false_ne_true,List.nil_append]

section Entries

variable {v : View} {root : Str} {dirHashOpts : Byte} (hhidden : ignoreUnixHiddenFiles dirHashOpts = true)

theorem filter_insertionSort (names : List Name) (p : Name → Bool) :
    (names.insertionSort (· ≤ ·)).filter p = (names.filter p).insertionSort (· ≤ ·) :=
  List.Perm.eq_of_pairwise' ((List.pairwise_insertionSort _ _).filter _)
    (List.pairwise_insertionSort _ _) (((List.perm_insertionSort _ _).filter _).trans
      (List.perm_insertionSort _ _).symm)

include hhidden

theorem ordered_hidden (names : List Name) :
    ordered dirHashOpts names = (ordered (withHidden dirHashOpts) names).filter visible := by
  obtain ⟨hnames,_,hshown,_⟩ := withHidden_flags dirHashOpts
  have hall : names.filter (filterMatch false) = names := List.filter_eq_self.mpr fun _ _ => rfl
  have hvisible : filterMatch true = visible := by
    funext c
    simp [filterMatch]
  unfold ordered
  simp only [hnames,hshown,hhidden,hall,hvisible]
  split_ifs
  · rw [List.filter_reverse,filter_insertionSort]
  · rw [List.filter_reverse]

variable (root) in
theorem opened_hidden (hlists : ListsNames v) (rel : Path) : ∃ names : List Name,
    (∀ c ∈ names, ProperName c) ∧
    ((bare root (withHidden dirHashOpts)).opened v (spelled root rel)).getD [] =
      names.map (fun c => (spelled root (rel ++ [c]),c)) ∧
    ((bare root dirHashOpts).opened v (spelled root rel)).getD [] =
      (names.filter visible).map fun c => (spelled root (rel ++ [c]),c) := by
  by_cases hdown : (bare root dirHashOpts).descends (readdirIterator.efdL v (spelled root rel))
  · cases hopen : v.opendir (spelled root rel) with
    | none => exact ⟨[],by simp,by simp [readdirIterator.opened,hopen],by simp [readdirIterator.opened,hopen]⟩
    | some names =>
      refine ⟨ordered (withHidden dirHashOpts) names,fun c hc => ?_,?_,?_⟩
      · exact hlists _ _ hopen c (mem_ordered.mp hc).1
      · have hdown' : (bare root (withHidden dirHashOpts)).descends
            (readdirIterator.efdL v (spelled root rel)) := hdown
        rw [readdirIterator.opened,if_pos hdown',hopen,Option.map_some,Option.getD_some,level_bare]
        simp only [spelled_concat]
      · rw [readdirIterator.opened,if_pos hdown,hopen,Option.map_some,Option.getD_some,level_bare,
          ordered_hidden hhidden]
        simp only [spelled_concat]
  · have hdown' : ¬ (bare root (withHidden dirHashOpts)).descends
        (readdirIterator.efdL v (spelled root rel)) := hdown
    exact ⟨[],by simp,by rw [readdirIterator.opened,if_neg hdown']; rfl,
      by rw [readdirIterator.opened,if_neg hdown]; rfl⟩

theorem below_hidden (hlists : ListsNames v) (depth : Nat) {rel : Path} {c : Name}
    (hrel : ∀ d ∈ rel, ProperName d) :
    ((bare root (withHidden dirHashOpts)).below v depth (spelled root rel,c)).filter
        (fun e => matched (e.1.drop (root.length + 1))) =
      if rel.all visible then (bare root dirHashOpts).below v depth (spelled root rel,c) else [] := by
  have hmatched : matched ((spelled root rel).drop (root.length + 1)) = rel.all visible := by
    rw [drop_spelled,matched,components_joined hrel]
  induction depth generalizing rel c with
  | zero =>
    rw [readdirIterator.below,readdirIterator.below,List.filter_singleton,hmatched]
    cases rel.all visible <;> rfl
  | succ depth ih =>
    obtain ⟨names,hproper,hopen,hopen'⟩ := opened_hidden root hhidden hlists rel
    have hchild : ∀ d ∈ names, ((bare root (withHidden dirHashOpts)).below v depth
          (spelled root (rel ++ [d]),d)).filter (fun e => matched (e.1.drop (root.length + 1))) =
        if rel.all visible && visible d then
          (bare root dirHashOpts).below v depth (spelled root (rel ++ [d]),d) else [] := by
      intro d hd
      have hlonger : ∀ e ∈ rel ++ [d], ProperName e := by
        intro e he
        rcases List.mem_append.mp he with he | he
        · exact hrel e he
        · exact List.mem_singleton.mp he ▸ hproper d hd
      have hall : (rel ++ [d]).all visible = (rel.all visible && visible d) := by simp
      rw [ih hlonger (by rw [drop_spelled,matched,components_joined hlonger]),hall]
    rw [readdirIterator.below,readdirIterator.below,hopen,hopen',List.filter_cons,hmatched,
      List.filter_flatMap,List.flatMap_map,List.flatMap_map,List.flatMap_congr hchild]
    cases rel.all visible with
    | false => simp
    | true =>
      simp only [Bool.true_and,if_true]
      rw [flatMap_ite]

theorem entries_hidden (hlists : ListsNames v) {itA itH : readdirIterator}
    (hitA : dirIterator v root (withHidden dirHashOpts) = some itA)
    (hitH : dirIterator v root dirHashOpts = some itH) :
    itH.entries v = (itA.entries v).filter fun e => matched (e.1.drop (root.length + 1)) := by
  obtain ⟨_,names,hopen,hA⟩ := readdirIterator.createIterator_eq_some hitA
  obtain ⟨_,names',hopen',hH⟩ := readdirIterator.createIterator_eq_some hitH
  rw [hopen] at hopen'
  obtain rfl := Option.some.inj hopen'
  have hA' : itA = { bare root (withHidden dirHashOpts) with
      S := (bare root (withHidden dirHashOpts)).level root names } := hA
  have hH' : itH = { bare root dirHashOpts with S := (bare root dirHashOpts).level root names } := hH
  have htop : ∀ c, root ++ slash :: c = spelled root ([] ++ [c]) := by
    intro c
    rw [spelled_concat,spelled,List.flatMap_nil,List.append_nil]
  have hchild : ∀ d ∈ ordered (withHidden dirHashOpts) names,
      ((bare root (withHidden dirHashOpts)).below v (readdirIterator.deep (spelled root ([] ++ [d])))
        (spelled root ([] ++ [d]),d)).filter (fun e => matched (e.1.drop (root.length + 1))) =
      if visible d then (bare root dirHashOpts).below v
        (readdirIterator.deep (spelled root ([] ++ [d]))) (spelled root ([] ++ [d]),d) else [] := by
    intro d hd
    have hproper := hlists _ _ hopen d (mem_ordered.mp hd).1
    rw [below_hidden hhidden hlists _ (by simpa using hproper)]
    simp
  rw [hA',hH',readdirIterator.entries,readdirIterator.entries]
  simp only [level_bare,readdirIterator.below_stack,List.flatMap_map,htop]
  rw [ordered_hidden hhidden,List.filter_flatMap,List.flatMap_congr hchild,flatMap_ite]

end Entries

theorem map_filter_eq_iff {α β : Type} {l : List α} {p p' : α → Bool} {f f' : α → β}
    (himp : ∀ a ∈ l, p a → p' a) (hf : ∀ a ∈ l, p a → f a = f' a) :
    (l.filter p).map f = (l.filter p').map f' ↔ ∀ a ∈ l, p' a → p a := by
  constructor
  · intro heq
    have hlen := congrArg List.length heq
    rw [List.length_map,List.length_map] at hlen
    have hnested : l.filter p = (l.filter p').filter p := by
      rw [List.filter_filter]
      refine List.filter_congr fun a ha => ?_
      cases hp : p a with
      | true => rw [himp a ha hp]; rfl
      | false => rfl
    have hsame : l.filter p = l.filter p' := by
      refine List.Sublist.eq_of_length ?_ hlen
      rw [hnested]
      exact List.filter_sublist
    intro a ha hp'
    have hmem : a ∈ l.filter p := hsame ▸ List.mem_filter.mpr ⟨ha,hp'⟩
    exact (List.mem_filter.mp hmem).2
  · intro hback
    have hsame : l.filter p = l.filter p' := List.filter_congr fun a ha =>
      Bool.eq_iff_iff.mpr ⟨himp a ha,hback a ha⟩
    rw [← hsame]
    refine List.map_congr_left fun a ha => ?_
    obtain ⟨ha,hp⟩ := List.mem_filter.mp ha
    exact hf a ha hp

section Compared

variable {h : HashFunctions} {v : View} {root : Str} {algo dirHashOpts : Byte}
  {itA itH : readdirIterator}

theorem spelled_of_met (hlists : ListsNames v) {hidden : Bool} {path : Str} {name : Name}
    (hmet : readdirIterator.Met v .RECURSIVE hidden root path name) :
    ∃ rel : Path, (∀ c ∈ rel ++ [name], ProperName c) ∧ path = spelled root (rel ++ [name]) := by
  induction hmet with
  | entry hopen hc _ =>
    refine ⟨[],by simpa using hlists _ _ hopen _ hc,?_⟩
    rw [spelled_concat,spelled,List.flatMap_nil,List.append_nil]
  | deeper _ _ hopen hc _ ih =>
    obtain ⟨rel,hrel,rfl⟩ := ih
    refine ⟨_,fun d hd => ?_,(spelled_concat root _ _).symm⟩
    rcases List.mem_append.mp hd with hd | hd
    · exact hrel d hd
    · exact List.mem_singleton.mp hd ▸ hlists _ _ hopen _ hc

variable (v root dirHashOpts) in
/-- The pattern takes all components, and does not leave a directory without entries that would then
be ignored as empty. -/
def Kept (e : Str × Name) : Prop :=
  matched (e.1.drop (root.length + 1)) ∧
  ¬ (withNames dirHashOpts ∧ ignoreEmptyDirs dirHashOpts ∧ readdirIterator.efdL v e.1 = .d ∧
    ∃ names, v.opendir e.1 = some names ∧ ∀ c ∈ names, visible c = false)

theorem opened_bare {path : Str} : (bare root dirHashOpts).opened v path = some [] ↔
    readdirIterator.efdL v path = .d ∧ ∃ names, v.opendir path = some names ∧
      ∀ c ∈ names, filterMatch (ignoreUnixHiddenFiles dirHashOpts) c = false := by
  have hempty : ∀ names, ordered dirHashOpts names = [] ↔
      ∀ c ∈ names, filterMatch (ignoreUnixHiddenFiles dirHashOpts) c = false := by
    intro names
    simp [List.eq_nil_iff_forall_not_mem,mem_ordered]
  have hdown : (bare root dirHashOpts).descends (readdirIterator.efdL v path) ↔
      readdirIterator.efdL v path = .d := decide_eq_true_iff
  rw [readdirIterator.opened_eq_some,hdown]
  simp only [level_bare,List.map_eq_nil_iff,hempty]

theorem readdirEfdL_ne_empty (path : Str) : readdirIterator.efdL v path ≠ .empty := by
  unfold readdirIterator.efdL
  cases v.lstat path with
  | none => exact CurrentEfd.noConfusion
  | some st =>
    cases hkind : st.kind with
    | file => simp [hkind]
    | dir => simp [hkind]
    | link =>
      cases hstat : v.stat path with
      | none => simp [hkind]
      | some st' => simp only [hkind]; split_ifs <;> exact CurrentEfd.noConfusion

theorem item_file {e : Str × Name} : ((bare root dirHashOpts).item v e).currentEfd = .file ↔
    readdirIterator.efdL v e.1 = .file := by
  have hkind : ((bare root dirHashOpts).item v e).currentEfd =
      if (bare root dirHashOpts).opened v e.1 = some [] then .empty
      else readdirIterator.efdL v e.1 := rfl
  rw [hkind]
  split_ifs with hempty
  · rw [(opened_bare.mp hempty).1]
    decide
  · exact Iff.rfl

theorem contributes_item {e : Str × Name} :
    contributes dirHashOpts ((bare root dirHashOpts).item v e) ↔
      if readdirIterator.efdL v e.1 = .file then passedOver dirHashOpts e.2 = false
      else withNames dirHashOpts ∧ ¬ (ignoreEmptyDirs dirHashOpts ∧
        (bare root dirHashOpts).opened v e.1 = some []) := by
  have hkind : ((bare root dirHashOpts).item v e).currentEfd =
      if (bare root dirHashOpts).opened v e.1 = some [] then .empty
      else readdirIterator.efdL v e.1 := rfl
  have hname : ((bare root dirHashOpts).item v e).currentName = e.2 := rfl
  unfold contributes
  rw [hkind,hname]
  by_cases hempty : (bare root dirHashOpts).opened v e.1 = some []
  · have hdir := (opened_bare.mp hempty).1
    simp [hempty,hdir]
  · by_cases hfile : readdirIterator.efdL v e.1 = .file
    · simp [hempty,hfile]
    · simp [hempty,hfile,readdirEfdL_ne_empty]

theorem contributes_hidden (hhidden : ignoreUnixHiddenFiles dirHashOpts = true) (hlists : ListsNames v)
    {e : Str × Name} (hmet : readdirIterator.Met v .RECURSIVE false root e.1 e.2) :
    matched (e.1.drop (root.length + 1)) ∧ contributes dirHashOpts ((bare root dirHashOpts).item v e) ↔
      (contributes (withHidden dirHashOpts) ((bare root (withHidden dirHashOpts)).item v e) ∧
        shown (e.1.drop (root.length + 1))) ∧ Kept v root dirHashOpts e := by
  obtain ⟨hnames,hthumbs,hshown,hemptyDirs⟩ := withHidden_flags dirHashOpts
  obtain ⟨rel,hrel,hpath⟩ := spelled_of_met hlists hmet
  have hcomponents : components (e.1.drop (root.length + 1)) = rel ++ [e.2] := by
    rw [hpath,drop_spelled,components_joined hrel]
  have hlast : matched (e.1.drop (root.length + 1)) → e.2.head? ≠ some dot := by
    intro hm
    rw [matched,hcomponents,List.all_append,Bool.and_eq_true] at hm
    exact head_of_visible (by simpa using hm.2)
  have himp := @shown_of_matched (e.1.drop (root.length + 1))
  rw [contributes_item,contributes_item,hnames,hemptyDirs,Kept]
  by_cases hfile : readdirIterator.efdL v e.1 = .file
  · have hpass : matched (e.1.drop (root.length + 1)) →
        passedOver dirHashOpts e.2 = passedOver (withHidden dirHashOpts) e.2 := by
      intro hm
      simp [passedOver,hthumbs,hshown,hhidden,hlast hm]
    simp only [hfile,if_true]
    constructor
    · intro hgood
      obtain ⟨hm,hno⟩ := hgood
      exact ⟨⟨hpass hm ▸ hno,himp hm⟩,hm,fun hdir => by cases hdir.2.2.1⟩
    · intro hgood
      obtain ⟨⟨hno,_⟩,hm,_⟩ := hgood
      exact ⟨hm,(hpass hm).trans hno⟩
  · have hfiltered : (bare root dirHashOpts).opened v e.1 = some [] ↔
        readdirIterator.efdL v e.1 = .d ∧ ∃ names, v.opendir e.1 = some names ∧
          ∀ c ∈ names, visible c = false := by
      rw [opened_bare,hhidden]
      simp [filterMatch]
    have hless : (bare root (withHidden dirHashOpts)).opened v e.1 = some [] →
        (bare root dirHashOpts).opened v e.1 = some [] := by
      intro hempty
      obtain ⟨hdir,names,hopen,hall⟩ := opened_bare.mp hempty
      have hnone : names = [] := List.eq_nil_iff_forall_not_mem.mpr fun c hc => by
        have hc := hall c hc
        rw [hshown] at hc
        cases hc
      exact hfiltered.mpr ⟨hdir,names,hopen,by simp [hnone]⟩
    simp only [if_neg hfile]
    rw [← hfiltered]
    constructor
    · intro hgood
      obtain ⟨hm,hopts,hno⟩ := hgood
      exact ⟨⟨⟨hopts,fun hempty => hno ⟨hempty.1,hless hempty.2⟩⟩,himp hm⟩,hm,
        fun hempty => hno hempty.2⟩
    · intro hgood
      obtain ⟨⟨⟨hopts,_⟩,_⟩,hm,hno⟩ := hgood
      exact ⟨hm,hopts,fun hempty => hno ⟨hopts,hempty⟩⟩

theorem contribution_hidden {e : Str × Name}
    (hH : contributes dirHashOpts ((bare root dirHashOpts).item v e))
    (hA : contributes (withHidden dirHashOpts) ((bare root (withHidden dirHashOpts)).item v e)) :
    contribution h v root algo dirHashOpts ((bare root dirHashOpts).item v e) =
      contribution h v root algo (withHidden dirHashOpts)
        ((bare root (withHidden dirHashOpts)).item v e) := by
  obtain ⟨hnames,_,_,_⟩ := withHidden_flags dirHashOpts
  have hcurrent : ((bare root dirHashOpts).item v e).current =
      ((bare root (withHidden dirHashOpts)).item v e).current := rfl
  rw [contribution,contribution,hnames,named_of_contributes hH,named_of_contributes hA]
  simp only [item_file,hcurrent]

/-- The stream is made of the contributions, and with the option these are those of the entries that are not
hidden without it, just when each of these is kept. -/
theorem contributions_hidden_iff (hhidden : ignoreUnixHiddenFiles dirHashOpts = true)
    (hlists : ListsNames v) (hitA : dirIterator v root (withHidden dirHashOpts) = some itA)
    (hitH : dirIterator v root dirHashOpts = some itH) :
    (∀ opts it, dirIterator v root opts = some it →
      dirStream h v root algo opts = streamOf algo opts (contributions h v root algo opts it)) ∧
    (contributions h v root algo dirHashOpts itH =
        (contributions h v root algo (withHidden dirHashOpts) itA).filter (fun c => shown c.1) ↔
      ∀ e ∈ itA.entries v, contributes (withHidden dirHashOpts) (itA.item v e) →
        shown (e.1.drop (root.length + 1)) → Kept v root dirHashOpts e) := by
  refine ⟨fun opts it hit => dirStream_contributions hit,?_⟩
  obtain ⟨hnames,_,hshown,_⟩ := withHidden_flags dirHashOpts
  have hitem : ∀ {opts it}, dirIterator v root opts = some it → it.item v = (bare root opts).item v := by
    intro opts it hit
    obtain ⟨_,_,_,hrest⟩ := readdirIterator.createIterator_eq_some hit
    have hbare : it = { bare root opts with S := it.S } := by rw [hrest]; rfl
    rw [hbare]
    rfl
  have hmet : ∀ e ∈ itA.entries v, readdirIterator.Met v .RECURSIVE false root e.1 e.2 := by
    intro e he
    have hmet := (readdirIterator.mem_entries hitA).mp he
    rwa [hshown] at hmet
  have hboth := fun e he => contributes_hidden hhidden hlists (hmet e he)
  -- an entry that contributes does so with what it has without the option
  have hvalue : ∀ e ∈ itA.entries v,
      (matched (e.1.drop (root.length + 1)) && contributes dirHashOpts ((bare root dirHashOpts).item v e)) →
        contribution h v root algo dirHashOpts ((bare root dirHashOpts).item v e) =
          contribution h v root algo (withHidden dirHashOpts)
            ((bare root (withHidden dirHashOpts)).item v e) := by
    intro e he hgood
    have hgood := Bool.and_eq_true_iff.mp hgood
    exact contribution_hidden hgood.2 ((hboth e he).mp hgood).1.1
  have hleft : contributions h v root algo dirHashOpts itH = ((itA.entries v).filter fun e =>
      matched (e.1.drop (root.length + 1)) && contributes dirHashOpts ((bare root dirHashOpts).item v e)).map
        fun e => contribution h v root algo dirHashOpts ((bare root dirHashOpts).item v e) := by
    rw [contributions,readdirIterator.items,entries_hidden hhidden hlists hitA hitH,hitem hitH,
      List.filter_map,List.filter_filter,List.map_map]
    refine congrArg _ (List.filter_congr fun e _ => Bool.and_comm _ _)
  have hright : (contributions h v root algo (withHidden dirHashOpts) itA).filter (fun c => shown c.1) =
      ((itA.entries v).filter fun e =>
        contributes (withHidden dirHashOpts) ((bare root (withHidden dirHashOpts)).item v e) &&
          shown (e.1.drop (root.length + 1))).map fun e =>
            contribution h v root algo (withHidden dirHashOpts)
              ((bare root (withHidden dirHashOpts)).item v e) := by
    rw [contributions,readdirIterator.items,hitem hitA,List.filter_map,List.filter_map,List.filter_map,
      List.filter_filter,List.map_map]
    refine congrArg _ (List.filter_congr fun e _ => Bool.and_comm _ _)
  rw [hleft,hright,map_filter_eq_iff (fun e he hgood => ?_) hvalue,hitem hitA]
  · refine forall₂_congr fun e he => ?_
    rw [Bool.and_eq_true,Bool.and_eq_true,hboth e he]
    constructor
    · intro hkept hcontributes hplain
      exact (hkept ⟨hcontributes,hplain⟩).2
    · intro hkept hcontributes
      exact ⟨hcontributes,hkept hcontributes.1 hcontributes.2⟩
  · rw [Bool.and_eq_true] at hgood ⊢
    exact ((hboth e he).mp hgood).1

end Compared

theorem listsNames_loneFileAt {c : Name} (hc : ProperName c) (content : Str) :
    ListsNames (loneFileAt c content) := by
  intro s names hopen d hd
  have hopen : (if s = flatRoot then some [c] else none) = some names := hopen
  split_ifs at hopen
  obtain rfl := Option.some.inj hopen
  exact List.mem_singleton.mp hd ▸ hc

/-- A file "ab" contributes with the option for hidden files. -/
theorem contributions_hidden_two : ∃ itA itH,
    dirIterator (loneFileAt [97,98] [120]) flatRoot (withHidden 4) = some itA ∧
    dirIterator (loneFileAt [97,98] [120]) flatRoot 4 = some itH ∧
    contributions crcHashes (loneFileAt [97,98] [120]) flatRoot 0 4 itH =
      (contributions crcHashes (loneFileAt [97,98] [120]) flatRoot 0 (withHidden 4) itA).filter
        (fun c => shown c.1) := by
  refine ⟨_,_,rfl,rfl,(contributions_hidden_iff (by decide) (listsNames_loneFileAt (by decide) _) rfl
    rfl).2.mpr fun e he _ _ => ⟨?_,fun hnames => ?_⟩⟩
  · revert e
    decide
  · exact absurd hnames.1 (by decide)

/-- A file "a" does not. -/
theorem contributions_hidden_one : ∃ itA itH,
    dirIterator (loneFileAt [97] [120]) flatRoot (withHidden 4) = some itA ∧
    dirIterator (loneFileAt [97] [120]) flatRoot 4 = some itH ∧
    contributions crcHashes (loneFileAt [97] [120]) flatRoot 0 4 itH ≠
      (contributions crcHashes (loneFileAt [97] [120]) flatRoot 0 (withHidden 4) itA).filter
        (fun c => shown c.1) :=
  ⟨_,_,rfl,rfl,by decide +kernel⟩

end RootHelper
