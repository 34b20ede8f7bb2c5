import RootHelper.Hashes
import RootHelper.Posix.Leaves

/-!
The digest of a directory says what its tree is: neither where the tree stands nor in which order
its directories are listed makes a difference.
-/

set_option autoImplicit false

namespace RootHelper
open Posix

section AlikeLists

variable {α β : Type} {sorted : Bool}

/-- The same where they are sorted, and otherwise in any order. -/
def AlikeLists (sorted : Bool) (l l' : List α) : Prop := if sorted then l = l' else l.Perm l'

theorem alike_of_eq {l l' : List α} (h : l = l') : AlikeLists sorted l l' := by
  cases sorted with
  | true => exact h
  | false => exact .of_eq h

theorem AlikeLists.perm {l l' : List α} (h : AlikeLists sorted l l') : l.Perm l' := by
  cases sorted with
  | true => exact .of_eq h
  | false => exact h

theorem AlikeLists.cons {l l' : List α} (a : α) (h : AlikeLists sorted l l') :
    AlikeLists sorted (a :: l) (a :: l') := by
  cases sorted with
  | true => exact congrArg (a :: ·) h
  | false => exact List.Perm.cons a h

theorem AlikeLists.flatMap {l l' : List α} {f g : α → List β} (h : AlikeLists sorted l l')
    (hfg : ∀ a ∈ l, AlikeLists sorted (f a) (g a)) : AlikeLists sorted (l.flatMap f) (l'.flatMap g) := by
  cases sorted with
  | true =>
    have heq : l = l' := h
    subst heq
    exact List.flatMap_congr hfg
  | false => exact List.Perm.flatMap h hfg

end AlikeLists

/-- Two trees have the same places below them, the same kinds there and the same contents. -/
structure SameTree (fs₁ : FileSystem) (p₁ : Path) (fs₂ : FileSystem) (p₂ : Path) : Prop where
  isDir : ∀ rel, fs₁.isDir (p₁ ++ rel) = fs₂.isDir (p₂ ++ rel)
  fileAt : ∀ rel, fs₁.fileAt (p₁ ++ rel) = fs₂.fileAt (p₂ ++ rel)

/-- A place below `root` as an iterator spells it. -/
def spelled (root : Str) (rel : Path) : Str := root ++ rel.flatMap (slash :: ·)

/-- As it hands it out, without the root. -/
def joined (rel : Path) : Str := (rel.flatMap (slash :: ·)).tail

/-- What the calls show at `root` is the tree at `p` of `fs`, without links: its directories are
listed, in any order, and its files can be read. -/
structure ShowsTree (v : View) (root : Str) (fs : FileSystem) (p : Path) : Prop where
  links : ∀ rel t, fs.node (p ++ rel) ≠ some (.link t)
  listed : ∀ rel, fs.isDir (p ++ rel) →
    ∃ names, v.opendir (spelled root rel) = some names ∧ names.Perm (fs.children (p ++ rel))
  dir : ∀ rel, rel ≠ [] → fs.isDir (p ++ rel) →
    ∃ st, v.lstat (spelled root rel) = some st ∧ st.kind = .dir
  file : ∀ rel content, fs.fileAt (p ++ rel) = some content →
    ∃ st, v.lstat (spelled root rel) = some st ∧ st.kind = .file
  read : ∀ rel content, fs.fileAt (p ++ rel) = some content →
    ∃ r, v.openRead (pathConcat root (joined rel)) = some r ∧ r.fails = false ∧ r.content = content

theorem spelled_nil (root : Str) : spelled root [] = root := by simp [spelled]

theorem spelled_concat (root : Str) (rel : Path) (c : Name) :
    spelled root (rel ++ [c]) = spelled root rel ++ slash :: c := by
  simp [spelled]

theorem drop_spelled (root : Str) (rel : Path) :
    (spelled root rel).drop (root.length + 1) = joined rel := by
  rw [spelled,← List.drop_drop,List.drop_left,joined,List.drop_one]

theorem nulFree_spelled_proper {root : Str} {rel : Path} (hnul : NulFree root)
    (hproper : ∀ c ∈ rel, ProperName c) : NulFree (spelled root rel) := by
  rw [NulFree,spelled,List.mem_append,List.mem_flatMap]
  rintro (hmem | ⟨c,hc,hmem⟩)
  · exact hnul hmem
  · rcases List.mem_cons.mp hmem with hzero | hmem
    · exact absurd hzero (by decide)
    · exact (hproper c hc).2.2.1 hmem

theorem nulFree_spelled {fs : FileSystem} {root : Str} {p rel : Path} (hnul : NulFree root)
    (hhas : fs.has (p ++ rel)) : NulFree (spelled root rel) :=
  nulFree_spelled_proper hnul (FileSystem.proper_of_mem hhas)

section Shown

variable {v : View} {root : Str} {fs : FileSystem} {p rel : Path}

theorem ShowsTree.fileAt (h : ShowsTree v root fs p) (hhas : fs.has (p ++ rel)) (hdir : ¬ fs.isDir (p ++ rel)) :
    ∃ content, fs.fileAt (p ++ rel) = some content := by
  obtain ⟨n,hn⟩ := FileSystem.has_iff.mp hhas
  unfold FileSystem.fileAt
  cases n with
  | file content m => exact ⟨content,by rw [hn]⟩
  | dir m => exact absurd (FileSystem.isDir_iff.mpr ⟨m,hn⟩) hdir
  | link t => exact absurd hn (h.links rel t)

theorem ShowsTree.has_iff (h : ShowsTree v root fs p) :
    fs.has (p ++ rel) ↔ fs.isDir (p ++ rel) ∨ (fs.fileAt (p ++ rel)).isSome := by
  constructor
  · intro hhas
    by_cases hdir : fs.isDir (p ++ rel)
    · exact .inl hdir
    · obtain ⟨content,hcontent⟩ := h.fileAt hhas hdir
      exact .inr (by rw [hcontent]; rfl)
  · intro hkind
    rcases hkind with hdir | hfile
    · exact FileSystem.has_of_isDir hdir
    · obtain ⟨content,hcontent⟩ := Option.isSome_iff_exists.mp hfile
      exact (FileSystem.leaf_of_fileAt hcontent).1

theorem ShowsTree.efdL_dir (h : ShowsTree v root fs p) (hrel : rel ≠ []) (hdir : fs.isDir (p ++ rel)) :
    readdirIterator.efdL v (spelled root rel) = .d := by
  obtain ⟨st,hst,hkind⟩ := h.dir rel hrel hdir
  unfold readdirIterator.efdL
  rw [hst]
  simp only [hkind]

theorem ShowsTree.efdL_file (h : ShowsTree v root fs p) {content : Str}
    (hfile : fs.fileAt (p ++ rel) = some content) :
    readdirIterator.efdL v (spelled root rel) = .file := by
  obtain ⟨st,hst,hkind⟩ := h.file rel content hfile
  unfold readdirIterator.efdL
  rw [hst]
  simp only [hkind]

end Shown

theorem SameTree.children {fs₁ fs₂ : FileSystem} {p₁ p₂ : Path} (h : SameTree fs₁ p₁ fs₂ p₂)
    {v₁ v₂ : View} {root₁ root₂ : Str} (h₁ : ShowsTree v₁ root₁ fs₁ p₁) (h₂ : ShowsTree v₂ root₂ fs₂ p₂)
    (rel : Path) : (fs₁.children (p₁ ++ rel)).Perm (fs₂.children (p₂ ++ rel)) := by
  refine (List.perm_ext_iff_of_nodup (fs₁.nodup_children _) (fs₂.nodup_children _)).mpr fun c => ?_
  rw [FileSystem.mem_children,FileSystem.mem_children,List.append_assoc,List.append_assoc,h₁.has_iff,
    h₂.has_iff,h.isDir,h.fileAt]

/-- The iterator of a digest, with nothing on its stack. -/
def bare (root : Str) (dirHashOpts : Byte) : readdirIterator :=
  ⟨root.length + 1,.RECURSIVE,withNames dirHashOpts,ignoreUnixHiddenFiles dirHashOpts,[]⟩

/-- Names in the order they come off the stack. -/
def ordered (dirHashOpts : Byte) (names : List Name) : List Name :=
  let kept := names.filter (filterMatch (ignoreUnixHiddenFiles dirHashOpts))
  if withNames dirHashOpts then (kept.insertionSort (· ≤ ·)).reverse else kept.reverse

theorem level_bare (root current : Str) (dirHashOpts : Byte) (names : List Name) :
    (bare root dirHashOpts).level current names =
      (ordered dirHashOpts names).map fun c => (current ++ slash :: c,c) := by
  unfold readdirIterator.level ordered bare
  simp only
  split_ifs
  · rw [List.map_reverse,List.map_insertionSort (· ≤ ·) (fun x y : Str × Name => x.2 ≤ y.2)]
    exact fun _ _ _ _ => Iff.rfl
  · rw [List.map_reverse]

theorem ordered_alike {names₁ names₂ : List Name} (h : names₁.Perm names₂) (dirHashOpts : Byte) :
    AlikeLists (withNames dirHashOpts) (ordered dirHashOpts names₁) (ordered dirHashOpts names₂) := by
  have hkept := h.filter (filterMatch (ignoreUnixHiddenFiles dirHashOpts))
  unfold ordered AlikeLists
  cases withNames dirHashOpts with
  | true =>
    refine congrArg List.reverse (List.Perm.eq_of_pairwise' (List.pairwise_insertionSort _ _)
      (List.pairwise_insertionSort _ _) ?_)
    exact (List.perm_insertionSort _ _).trans (hkept.trans (List.perm_insertionSort _ _).symm)
  | false => exact (List.reverse_perm _).trans (hkept.trans (List.reverse_perm _).symm)

theorem mem_ordered {dirHashOpts : Byte} {names : List Name} {c : Name} :
    c ∈ ordered dirHashOpts names ↔ c ∈ names ∧ filterMatch (ignoreUnixHiddenFiles dirHashOpts) c := by
  unfold ordered
  simp only
  split_ifs
  · rw [List.mem_reverse,List.mem_insertionSort,List.mem_filter]
  · rw [List.mem_reverse,List.mem_filter]

section Iterations

variable {v : View} {root : Str} {fs : FileSystem} {p rel : Path} {dirHashOpts : Byte}

variable (dirHashOpts) in
theorem ShowsTree.opened_dir (h : ShowsTree v root fs p) (hrel : rel ≠ []) (hdir : fs.isDir (p ++ rel)) :
    ∃ names, names.Perm (fs.children (p ++ rel)) ∧
      (bare root dirHashOpts).opened v (spelled root rel) =
        some ((ordered dirHashOpts names).map fun c => (spelled root (rel ++ [c]),c)) := by
  obtain ⟨names,hopen,hperm⟩ := h.listed rel hdir
  refine ⟨names,hperm,?_⟩
  rw [readdirIterator.opened,if_pos,hopen,Option.map_some,level_bare]
  · simp only [spelled_concat]
  · rw [h.efdL_dir hrel hdir]
    rfl

theorem ShowsTree.opened_file (h : ShowsTree v root fs p) {content : Str}
    (hfile : fs.fileAt (p ++ rel) = some content) :
    (bare root dirHashOpts).opened v (spelled root rel) = none := by
  rw [readdirIterator.opened,if_neg]
  rw [h.efdL_file hfile]
  exact Bool.false_ne_true

variable (v root dirHashOpts) in
/-- What is handed out of an entry and all below it. -/
def handedOut (e : Str × Name) : List Current :=
  ((bare root dirHashOpts).below v (readdirIterator.deep e.1) e).map ((bare root dirHashOpts).item v)

theorem handedOut_unfold (e : Str × Name) : handedOut v root dirHashOpts e =
    (bare root dirHashOpts).item v e ::
      (((bare root dirHashOpts).opened v e.1).getD []).flatMap (handedOut v root dirHashOpts) := by
  rw [handedOut,readdirIterator.below_unfold,List.map_cons,List.map_flatMap]
  rfl

theorem ShowsTree.handedOut_file (h : ShowsTree v root fs p) {c : Name} {content : Str}
    (hfile : fs.fileAt (p ++ (rel ++ [c])) = some content) :
    handedOut v root dirHashOpts (spelled root (rel ++ [c]),c) = [⟨joined (rel ++ [c]),c,.file⟩] := by
  rw [handedOut_unfold,h.opened_file hfile,readdirIterator.item,h.opened_file hfile,h.efdL_file hfile]
  simp only [bare,drop_spelled]
  rfl

variable (dirHashOpts) in
theorem ShowsTree.handedOut_dir (h : ShowsTree v root fs p) {c : Name}
    (hdir : fs.isDir (p ++ (rel ++ [c]))) : ∃ names, names.Perm (fs.children (p ++ (rel ++ [c]))) ∧
      handedOut v root dirHashOpts (spelled root (rel ++ [c]),c) =
        ⟨joined (rel ++ [c]),c,if ordered dirHashOpts names = [] then .empty else .d⟩ ::
          (ordered dirHashOpts names).flatMap fun d =>
            handedOut v root dirHashOpts (spelled root (rel ++ [c] ++ [d]),d) := by
  obtain ⟨names,hperm,hopen⟩ := h.opened_dir dirHashOpts (by simp) hdir
  refine ⟨names,hperm,?_⟩
  rw [handedOut_unfold,readdirIterator.item]
  simp only [hopen,Option.getD_some,List.flatMap_map,h.efdL_dir (by simp) hdir,Option.some.injEq,
    List.map_eq_nil_iff]
  simp only [bare,drop_spelled]

variable (dirHashOpts) in
theorem ShowsTree.items (h : ShowsTree v root fs p) (habs : absolute root) (hdir : fs.isDir p) :
    ∃ it names, dirIterator v root dirHashOpts = some it ∧ names.Perm (fs.children p) ∧
      it.items v = (ordered dirHashOpts names).flatMap fun c =>
        handedOut v root dirHashOpts (spelled root ([] ++ [c]),c) := by
  obtain ⟨names,hopen,hperm⟩ := h.listed [] (by rw [List.append_nil]; exact hdir)
  rw [List.append_nil] at hperm
  rw [spelled,List.flatMap_nil,List.append_nil] at hopen
  refine ⟨{ bare root dirHashOpts with S := (bare root dirHashOpts).level root names },names,?_,hperm,?_⟩
  · rw [dirIterator,readdirIterator.createIterator,if_neg (not_not.mpr habs),hopen]
    rfl
  · rw [readdirIterator.items,readdirIterator.entries]
    simp only [level_bare,readdirIterator.below_stack,List.flatMap_map,List.map_flatMap]
    refine List.flatMap_congr fun c _ => ?_
    rw [spelled_concat,spelled,List.flatMap_nil,List.append_nil]
    rfl

theorem ShowsTree.of_met (h : ShowsTree v root fs p) (hdir : fs.isDir p) {hidden : Bool} {path : Str}
    {name : Name} (hmet : readdirIterator.Met v .RECURSIVE hidden root path name) :
    ∃ rel, rel ≠ [] ∧ path = spelled root rel ∧ fs.has (p ++ rel) := by
  have hchild : ∀ rel names c, fs.isDir (p ++ rel) → v.opendir (spelled root rel) = some names →
      c ∈ names → fs.has (p ++ (rel ++ [c])) := by
    intro rel names c hdir hopen hc
    obtain ⟨names',hopen',hperm⟩ := h.listed rel hdir
    rw [hopen] at hopen'
    cases hopen'
    rw [← List.append_assoc]
    exact FileSystem.mem_children.mp (hperm.mem_iff.mp hc)
  induction hmet with
  | entry hopen hc _ =>
    refine ⟨[] ++ [_],by simp,?_,hchild [] _ _ (by rwa [List.append_nil]) ?_ hc⟩
    · rw [spelled_concat,spelled,List.flatMap_nil,List.append_nil]
    · rwa [spelled,List.flatMap_nil,List.append_nil]
  | deeper _ hdown hopen hc _ ih =>
    obtain ⟨rel,hrel,rfl,hhas⟩ := ih
    have hdir : fs.isDir (p ++ rel) := by
      by_contra hno
      obtain ⟨content,hfile⟩ := h.fileAt hhas hno
      rw [h.efdL_file hfile] at hdown
      exact Bool.false_ne_true hdown
    exact ⟨rel ++ [_],by simp,(spelled_concat root rel _).symm,hchild rel _ _ hdir hopen hc⟩

theorem ShowsTree.file_of_mem (h : ShowsTree v root fs p) (hdir : fs.isDir p) {it : readdirIterator}
    (hit : dirIterator v root dirHashOpts = some it) {i : Current} (hi : i ∈ it.items v)
    (hfile : i.currentEfd = .file) : ∃ rel content, i.current = joined rel ∧
      fs.fileAt (p ++ rel) = some content := by
  obtain ⟨e,he,rfl⟩ := List.mem_map.mp hi
  obtain ⟨rel,hrel,hpath,hhas⟩ := h.of_met hdir ((readdirIterator.mem_entries hit).mp he)
  obtain ⟨_,names,_,hrest⟩ := readdirIterator.createIterator_eq_some hit
  have hroot : it.rootLen = root.length + 1 := by rw [hrest]; rfl
  simp only [readdirIterator.item,hpath] at hfile
  split_ifs at hfile
  have hno : ¬ fs.isDir (p ++ rel) := fun hd => by
    rw [h.efdL_dir hrel hd] at hfile
    cases hfile
  obtain ⟨content,hcontent⟩ := h.fileAt hhas hno
  refine ⟨rel,content,?_,hcontent⟩
  simp only [readdirIterator.item,hroot,hpath,drop_spelled]

theorem ShowsTree.reads (h : ShowsTree v root fs p) {content : Str}
    (hfile : fs.fileAt (p ++ rel) = some content) :
    IsRead v (pathConcat root (joined rel)) ∧ fileContent v (pathConcat root (joined rel)) = content := by
  obtain ⟨r,hopen,hfails,hcontent⟩ := h.read rel content hfile
  refine ⟨⟨r,hopen,hfails⟩,?_⟩
  rw [fileContent,hopen]
  exact hcontent

end Iterations

section Both

variable {v₁ v₂ : View} {root₁ root₂ : Str} {fs₁ fs₂ : FileSystem} {p₁ p₂ rel : Path}
  {dirHashOpts : Byte} (hsame : SameTree fs₁ p₁ fs₂ p₂) (h₁ : ShowsTree v₁ root₁ fs₁ p₁)
  (h₂ : ShowsTree v₂ root₂ fs₂ p₂)

include hsame h₁ h₂

theorem handedOut_alike {c : Name} (hhas : fs₁.has (p₁ ++ (rel ++ [c]))) :
    AlikeLists (withNames dirHashOpts) (handedOut v₁ root₁ dirHashOpts (spelled root₁ (rel ++ [c]),c))
      (handedOut v₂ root₂ dirHashOpts (spelled root₂ (rel ++ [c]),c)) := by
  generalize hn : fs₁.size (p₁ ++ (rel ++ [c])) = n
  induction n using Nat.strongRecOn generalizing rel c with
  | ind n ih =>
    by_cases hdir : fs₁.isDir (p₁ ++ (rel ++ [c]))
    · have hdir₂ : fs₂.isDir (p₂ ++ (rel ++ [c])) := hsame.isDir _ ▸ hdir
      obtain ⟨names₁,hperm₁,hout₁⟩ := h₁.handedOut_dir dirHashOpts hdir
      obtain ⟨names₂,hperm₂,hout₂⟩ := h₂.handedOut_dir dirHashOpts hdir₂
      have halike := ordered_alike (hperm₁.trans ((hsame.children h₁ h₂ _).trans hperm₂.symm)) dirHashOpts
      have hempty : ordered dirHashOpts names₁ = [] ↔ ordered dirHashOpts names₂ = [] := by
        rw [← List.length_eq_zero_iff,halike.perm.length_eq,List.length_eq_zero_iff]
      rw [hout₁,hout₂]
      simp only [hempty]
      refine (halike.flatMap fun d hd => ?_).cons _
      have hchild : fs₁.has (p₁ ++ (rel ++ [c]) ++ [d]) :=
        FileSystem.mem_children.mp (hperm₁.mem_iff.mp (mem_ordered.mp hd).1)
      have hlt := FileSystem.size_child_lt hhas d
      rw [List.append_assoc] at hchild hlt
      exact ih _ (hn ▸ hlt) hchild rfl
    · obtain ⟨content,hfile⟩ := h₁.fileAt hhas hdir
      rw [h₁.handedOut_file hfile,h₂.handedOut_file (hsame.fileAt _ ▸ hfile)]
      exact alike_of_eq rfl

theorem items_alike (habs₁ : absolute root₁) (habs₂ : absolute root₂) (hdir : fs₁.isDir p₁)
    (dirHashOpts : Byte) : ∃ it₁ it₂, dirIterator v₁ root₁ dirHashOpts = some it₁ ∧
      dirIterator v₂ root₂ dirHashOpts = some it₂ ∧
      AlikeLists (withNames dirHashOpts) (it₁.items v₁) (it₂.items v₂) := by
  have hroot := hsame.isDir []
  have hchildren := hsame.children h₁ h₂ []
  rw [List.append_nil,List.append_nil] at hroot hchildren
  obtain ⟨it₁,names₁,hit₁,hperm₁,hitems₁⟩ := h₁.items dirHashOpts habs₁ hdir
  obtain ⟨it₂,names₂,hit₂,hperm₂,hitems₂⟩ := h₂.items dirHashOpts habs₂ (hroot ▸ hdir)
  refine ⟨it₁,it₂,hit₁,hit₂,?_⟩
  rw [hitems₁,hitems₂]
  have halike := ordered_alike (hperm₁.trans (hchildren.trans hperm₂.symm)) dirHashOpts
  refine halike.flatMap fun c hc => handedOut_alike hsame h₁ h₂ ?_
  exact FileSystem.mem_children.mp (hperm₁.mem_iff.mp (mem_ordered.mp hc).1)

end Both

section Digests

variable {h : HashFunctions} {v₁ v₂ : View} {root₁ root₂ : Str} {fs₁ fs₂ : FileSystem} {p₁ p₂ : Path}
  {algo dirHashOpts : Byte}

/-- Two trees that are the same, at absolute paths and with their directories listed in any order,
have the same digest, with names for every algorithm, and by content where there is room for the
digests of the files. -/
theorem rh_computeHash_dir_eq (hsame : SameTree fs₁ p₁ fs₂ p₂) (h₁ : ShowsTree v₁ root₁ fs₁ p₁)
    (h₂ : ShowsTree v₂ root₂ fs₂ p₂) (hdir : fs₁.isDir p₁) (habs₁ : absolute root₁)
    (habs₂ : absolute root₂) (halgo : algo.toNat < rh_hash_maxAlgoIndex)
    (hroom : withNames dirHashOpts ∨ ∀ it ∈ dirIterator v₁ root₁ dirHashOpts,
      Room (hashSize algo) (filesHashed v₁ dirHashOpts it).length) :
    ∃ digest, rh_computeHash_dir h v₁ root₁ algo dirHashOpts = some digest ∧
      rh_computeHash_dir h v₂ root₂ algo dirHashOpts = some digest := by
  obtain ⟨it₁,it₂,hit₁,hit₂,halike⟩ := items_alike hsame h₁ h₂ habs₁ habs₂ hdir dirHashOpts
  -- the files are read on both sides, and hold the same
  have hfiles : ∀ i ∈ it₁.items v₁, i.currentEfd = .file →
      IsRead v₁ (pathConcat root₁ i.current) ∧ IsRead v₂ (pathConcat root₂ i.current) ∧
      fileContent v₁ (pathConcat root₁ i.current) = fileContent v₂ (pathConcat root₂ i.current) := by
    intro i hi hfile
    obtain ⟨rel,content,hcurrent,hcontent⟩ := h₁.file_of_mem hdir hit₁ hi hfile
    have hread₁ := h₁.reads hcontent
    have hread₂ := h₂.reads (hsame.fileAt rel ▸ hcontent)
    rw [hcurrent]
    exact ⟨hread₁.1,hread₂.1,hread₁.2.trans hread₂.2.symm⟩
  suffices hstream : ∃ s, dirStream h v₁ root₁ algo dirHashOpts = some (some s) ∧
      dirStream h v₂ root₂ algo dirHashOpts = some (some s) by
    obtain ⟨s,hs₁,hs₂⟩ := hstream
    exact ⟨h.digest (hashLabel algo) s,by rw [rh_computeHash_dir,hs₁]; rfl,
      by rw [rh_computeHash_dir,hs₂]; rfl⟩
  cases hnames : withNames dirHashOpts with
  | true =>
    rw [hnames] at halike
    have heq : it₁.items v₁ = it₂.items v₂ := halike
    refine ⟨_,dirStream_names hit₁ hnames,?_⟩
    rw [dirStream_names hit₂ hnames,← heq]
    refine congrArg (fun s => some (some s)) (List.flatMap_congr fun i hi => ?_)
    unfold named
    by_cases hfile : i.currentEfd = .file
    · rw [if_pos hfile,if_pos hfile,(hfiles i hi hfile).2.2]
    · rw [if_neg hfile,if_neg hfile]
  | false =>
    have hperm : (filesHashed v₁ dirHashOpts it₁).Perm (filesHashed v₂ dirHashOpts it₂) :=
      halike.perm.filter _
    have hkind : ∀ i ∈ filesHashed v₁ dirHashOpts it₁, i ∈ it₁.items v₁ ∧ i.currentEfd = .file := by
      intro i hi
      obtain ⟨hmem,hkeep⟩ := List.mem_filter.mp hi
      exact ⟨hmem,(of_decide_eq_true hkeep).1⟩
    have hroom₁ := (hroom.resolve_left (by rw [hnames]; exact Bool.false_ne_true)) it₁ hit₁
    have hroom₂ : Room (hashSize algo) (filesHashed v₂ dirHashOpts it₂).length := by
      rw [← hperm.length_eq]
      exact hroom₁
    obtain ⟨x₁,hfilled₁,hstream₁⟩ := contents_filled h hit₁ hnames halgo
      (fun i hi => (hfiles i (hkind i hi).1 (hkind i hi).2).1) hroom₁
    obtain ⟨x₂,hfilled₂,hstream₂⟩ := contents_filled h hit₂ hnames halgo (fun i hi => by
      have hi₁ := hperm.mem_iff.mpr hi
      exact (hfiles i (hkind i hi₁).1 (hkind i hi₁).2).2.1) hroom₂
    have hdigests : ((filesHashed v₁ dirHashOpts it₁).map (contentDigest h v₁ root₁ algo)).Perm
        ((filesHashed v₂ dirHashOpts it₂).map (contentDigest h v₂ root₂ algo)) := by
      have hsame₁ : (filesHashed v₁ dirHashOpts it₁).map (contentDigest h v₁ root₁ algo) =
          (filesHashed v₁ dirHashOpts it₁).map (contentDigest h v₂ root₂ algo) :=
        List.map_congr_left fun i hi => by
          rw [contentDigest,contentDigest,(hfiles i (hkind i hi).1 (hkind i hi).2).2.2]
      rw [hsame₁]
      exact hperm.map _
    refine ⟨_,hstream₁,?_⟩
    rw [hstream₂,hfilled₁.sortHashes_eq (length_contentDigest h v₁ root₁ halgo _) (hashSize_pos halgo)
      (by rw [List.length_map]; exact hroom₁.holds) hfilled₂ hdigests]

end Digests

/-- "a" and "b", each of one byte. -/
def twoLetters : FileSystem :=
  .ofEntries [([],.dir 0o755),([[97]],.file [120] 0o644),([[98]],.file [121] 0o644)] (by decide)

theorem twoLetters_cases {rel : Path} {n : Node} (h : twoLetters.node rel = some n) :
    (rel = [] ∧ n = .dir 0o755) ∨ (rel = [[97]] ∧ n = .file [120] 0o644) ∨
      (rel = [[98]] ∧ n = .file [121] 0o644) := by
  have hmem : rel ∈ twoLetters.paths := (twoLetters.mem_paths rel).mpr (by rw [h]; rfl)
  simp only [twoLetters,FileSystem.ofEntries,List.map_cons,List.map_nil,List.mem_cons,
    List.not_mem_nil,or_false] at hmem
  rcases hmem with rfl | rfl | rfl
  · exact .inl ⟨rfl,(Option.some.inj h).symm⟩
  · exact .inr (.inl ⟨rfl,(Option.some.inj h).symm⟩)
  · exact .inr (.inr ⟨rfl,(Option.some.inj h).symm⟩)

theorem letter_ne_nil : ∀ s ∈ ([[120]] : List Str), s ≠ [] := by decide

/-- They stand at `root`, which is listed in the order of `names`. -/
def twoLettersAt (root : Str) (names : List Name) (hroot : root.length < PATH_MAX) : View where
  lstat s := if s = root then some ⟨.dir,0o755,0,0,4096,0,0,0⟩
    else if s = spelled root [[97]] ∨ s = spelled root [[98]] then some ⟨.file,0o644,0,0,1,0,0,0⟩
    else none
  stat _ := none
  opendir s := if s = root then some names else none
  openRead s := if s = pathConcat root [97] then some ⟨[[120]],letter_ne_nil,false⟩
    else if s = pathConcat root [98] then some ⟨[[121]],by decide,false⟩
    else none
  username _ := none
  errno _ := 2
  errno_pos := errno_two_pos
  errno_lt := errno_two_lt
  short s ns h := by
    split_ifs at h with hs
    rw [hs]
    exact hroot

theorem showsTree_twoLetters (root : Str) {names : List Name} (hroot : root.length < PATH_MAX)
    (hnames : names.Perm [[97],[98]]) : ShowsTree (twoLettersAt root names hroot) root twoLetters [] := by
  have hchildren : twoLetters.children [] = [[97],[98]] := by decide
  have hspelled : spelled root [] = root := by simp [spelled]
  have hne : ∀ c, spelled root [c] ≠ root := fun c h => by
    have hlen := congrArg List.length h
    simp [spelled] at hlen
  have hread : pathConcat root [98] ≠ pathConcat root [97] := by
    unfold pathConcat
    split_ifs <;> simp
  refine ⟨?_,?_,?_,?_,?_⟩
  · intro rel t h
    rcases twoLetters_cases h with ⟨_,hn⟩ | ⟨_,hn⟩ | ⟨_,hn⟩ <;> cases hn
  · intro rel h
    obtain ⟨m,hm⟩ := FileSystem.isDir_iff.mp h
    rcases twoLetters_cases hm with ⟨rfl,_⟩ | ⟨_,hn⟩ | ⟨_,hn⟩
    · exact ⟨names,if_pos hspelled,hchildren ▸ hnames⟩
    · cases hn
    · cases hn
  · intro rel hrel h
    obtain ⟨m,hm⟩ := FileSystem.isDir_iff.mp h
    rcases twoLetters_cases hm with ⟨rfl,_⟩ | ⟨_,hn⟩ | ⟨_,hn⟩
    · exact absurd rfl hrel
    · cases hn
    · cases hn
  · intro rel content h
    obtain ⟨m,hm⟩ := FileSystem.node_of_fileAt h
    rcases twoLetters_cases hm with ⟨_,hn⟩ | ⟨rfl,_⟩ | ⟨rfl,_⟩
    · cases hn
    · exact ⟨_,(if_neg (hne [97])).trans (if_pos (.inl rfl)),rfl⟩
    · exact ⟨_,(if_neg (hne [98])).trans (if_pos (.inr rfl)),rfl⟩
  · intro rel content h
    obtain ⟨m,hm⟩ := FileSystem.node_of_fileAt h
    rcases twoLetters_cases hm with ⟨_,hn⟩ | ⟨rfl,hn⟩ | ⟨rfl,hn⟩
    · cases hn
    · cases hn
      exact ⟨_,if_pos rfl,rfl,rfl⟩
    · cases hn
      exact ⟨_,(if_neg hread).trans (if_pos rfl),rfl,rfl⟩

theorem sameTree_refl (fs : FileSystem) (p : Path) : SameTree fs p fs p := ⟨fun _ => rfl,fun _ => rfl⟩

/-- By content, "/d" and "/e/" listed the other way round. -/
theorem rh_computeHash_dir_twoFiles : ∃ digest,
    rh_computeHash_dir crcHashes (twoLettersAt [47,100] [[97],[98]] (by decide)) [47,100] 0 0 = some digest ∧
    rh_computeHash_dir crcHashes (twoLettersAt [47,101,47] [[98],[97]] (by decide)) [47,101,47] 0 0 =
      some digest := by
  refine rh_computeHash_dir_eq (sameTree_refl twoLetters []) (showsTree_twoLetters _ (by decide) (by decide))
    (showsTree_twoLetters _ (by decide) (by decide)) (by decide) rfl rfl (by decide) (.inr fun it hit => ?_)
  obtain rfl := Option.some.inj hit
  decide +kernel

/-- A directory by a path that is not absolute has no digest, the same tree at "/d" has one. -/
theorem rh_computeHash_dir_relative :
    SameTree twoLetters [] twoLetters [] ∧
    ShowsTree (twoLettersAt [47,100] [[97],[98]] (by decide)) [47,100] twoLetters [] ∧
    ShowsTree (twoLettersAt [100] [[97],[98]] (by decide)) [100] twoLetters [] ∧
    rh_computeHash_dir crcHashes (twoLettersAt [47,100] [[97],[98]] (by decide)) [47,100] 0 1 ≠
      rh_computeHash_dir crcHashes (twoLettersAt [100] [[97],[98]] (by decide)) [100] 0 1 := by
  refine ⟨sameTree_refl twoLetters [],showsTree_twoLetters _ (by decide) (by decide),
    showsTree_twoLetters _ (by decide) (by decide),?_⟩
  decide +kernel

end RootHelper
