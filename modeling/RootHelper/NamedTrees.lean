import RootHelper.Posix.Containment
import RootHelper.TreeHashes
import RootHelper.ContentDigests

/-!
The stream of a directory with names. Nothing stands between a content, the path behind it and the
next entry, so it tells which tree it is of only where it is known how long each of them is.
-/

set_option autoImplicit false

namespace RootHelper
open Posix

theorem slash_joined {rel : Path} (hrel : rel ≠ []) : slash :: joined rel = rel.flatMap (slash :: ·) := by
  cases rel with
  | nil => exact absurd rfl hrel
  | cons c rel => rfl

theorem joined_inj {rel rel' : Path} (hrel : rel ≠ []) (hrel' : rel' ≠ [])
    (h : ∀ c ∈ rel, ProperName c) (h' : ∀ c ∈ rel', ProperName c) (heq : joined rel = joined rel') :
    rel = rel' := by
  have hboth := congrArg (fun s => components (slash :: s)) heq
  simp only [slash_joined hrel,slash_joined hrel'] at hboth
  rwa [components_flatMap h,components_flatMap h'] at hboth

/-- Only names, and nothing is passed over. -/
structure Unfiltered (dirHashOpts : Byte) : Prop where
  names : withNames dirHashOpts = true
  thumbs : ignoreThumbsFiles dirHashOpts = false
  hidden : ignoreUnixHiddenFiles dirHashOpts = false
  emptyDirs : ignoreEmptyDirs dirHashOpts = false

/-- What an item says of the tree. -/
structure Entry where
  isFile : Bool
  path : Str
  content : Str
  deriving DecidableEq, Repr

def treeEntry (v : View) (root : Str) (i : Current) : Entry :=
  if i.currentEfd = .file then ⟨true,i.current,fileContent v (pathConcat root i.current)⟩
  else ⟨false,i.current,[]⟩

def Entry.bytes (e : Entry) : Str := e.content ++ e.path

/-- The kind of an entry, and how long its parts are. -/
def Entry.frame (e : Entry) : Bool × Nat × Nat := (e.isFile,e.path.length,e.content.length)

theorem Entry.eq_of_frame {e e' : Entry} {s s' : Str} (hframe : e.frame = e'.frame)
    (hbytes : e.bytes ++ s = e'.bytes ++ s') : e = e' ∧ s = s' := by
  obtain ⟨isFile,path,content⟩ := e
  obtain ⟨isFile',path',content'⟩ := e'
  simp only [frame,Prod.mk.injEq] at hframe
  obtain ⟨rfl,hpath,hcontent⟩ := hframe
  have hlen : (content ++ path).length = (content' ++ path').length := by
    rw [List.length_append,List.length_append,hpath,hcontent]
  obtain ⟨hfirst,hrest⟩ := List.append_inj hbytes hlen
  obtain ⟨rfl,rfl⟩ := List.append_inj hfirst hcontent
  exact ⟨rfl,hrest⟩

theorem entries_eq_of_frames {es es' : List Entry} (hframes : es.map Entry.frame = es'.map Entry.frame)
    (hbytes : es.flatMap Entry.bytes = es'.flatMap Entry.bytes) : es = es' := by
  induction es generalizing es' with
  | nil => exact (List.map_eq_nil_iff.mp hframes.symm).symm
  | cons e es ih =>
    cases es' with
    | nil => cases hframes
    | cons e' es' =>
      obtain ⟨hframe,hrest⟩ := List.cons.inj hframes
      rw [List.flatMap_cons,List.flatMap_cons] at hbytes
      obtain ⟨rfl,htail⟩ := Entry.eq_of_frame hframe hbytes
      rw [ih hrest htail]

section Told

variable {h : HashFunctions} {v : View} {root : Str} {fs : FileSystem} {p rel : Path}
  {algo dirHashOpts : Byte} {it : readdirIterator}

theorem named_treeEntry (hopts : Unfiltered dirHashOpts) (i : Current) :
    named v root dirHashOpts i = (treeEntry v root i).bytes := by
  have hpass : passedOver dirHashOpts i.currentName = false := by
    simp [passedOver,hopts.thumbs,hopts.hidden]
  rw [named,treeEntry,hpass,hopts.emptyDirs,Bool.false_and,if_neg Bool.false_ne_true,
    if_neg Bool.false_ne_true]
  split_ifs
  · rfl
  · rfl

/-- The entries of an iteration over `root`. -/
def entriesTold (v : View) (root : Str) (it : readdirIterator) : List Entry :=
  (it.items v).map (treeEntry v root)

theorem dirStream_entriesTold (hopts : Unfiltered dirHashOpts)
    (hit : dirIterator v root dirHashOpts = some it) : dirStream h v root algo dirHashOpts =
      some (some ((entriesTold v root it).flatMap Entry.bytes)) := by
  rw [dirStream_names hit hopts.names,entriesTold,List.flatMap_map]
  exact congrArg (fun s => some (some s)) (List.flatMap_congr fun i _ => named_treeEntry hopts i)

theorem ShowsTree.met (h : ShowsTree v root fs p) (hrel : rel ≠ []) (hhas : fs.has (p ++ rel)) :
    ∃ c, readdirIterator.Met v .RECURSIVE false root (spelled root rel) c := by
  induction rel using List.reverseRecOn with
  | nil => exact absurd rfl hrel
  | append_singleton rel c ih =>
    rw [← List.append_assoc] at hhas
    have hdir := FileSystem.isDir_of_above hhas (List.prefix_append (p ++ rel) [c]) (by simp)
    obtain ⟨names,hopen,hperm⟩ := h.listed rel hdir
    have hc : c ∈ names := hperm.mem_iff.mpr (FileSystem.mem_children.mpr hhas)
    rw [spelled_concat]
    by_cases htop : rel = []
    · subst htop
      rw [spelled,List.flatMap_nil,List.append_nil] at hopen ⊢
      exact ⟨c,.entry hopen hc rfl⟩
    · obtain ⟨name,hmet⟩ := ih htop (FileSystem.has_of_isDir hdir)
      refine ⟨c,.deeper hmet ?_ hopen hc rfl⟩
      rw [h.efdL_dir htop hdir]
      rfl

theorem ShowsTree.treeEntry_item (h : ShowsTree v root fs p)
    (hit : dirIterator v root dirHashOpts = some it) {e : Str × Name} (hrel : rel ≠ [])
    (hpath : e.1 = spelled root rel) : (fs.isDir (p ++ rel) →
        treeEntry v root (it.item v e) = ⟨false,joined rel,[]⟩) ∧
      ∀ content, fs.fileAt (p ++ rel) = some content →
        treeEntry v root (it.item v e) = ⟨true,joined rel,content⟩ := by
  obtain ⟨_,names,_,hrest⟩ := readdirIterator.createIterator_eq_some hit
  have hroot : it.rootLen = root.length + 1 := by rw [hrest]; rfl
  have hlisting : it.recursiveListing = .RECURSIVE := by rw [hrest]
  constructor
  · intro hdir
    have hkind : (if it.opened v (spelled root rel) = some [] then CurrentEfd.empty else .d) ≠ .file := by
      split_ifs <;> decide
    rw [treeEntry,readdirIterator.item,hpath,h.efdL_dir hrel hdir,if_neg hkind,hroot,drop_spelled]
  · intro content hfile
    have hopened : it.opened v (spelled root rel) = none := by
      rw [readdirIterator.opened,readdirIterator.descends,hlisting,h.efdL_file hfile]
      rfl
    have hkind : it.item v e = ⟨joined rel,e.2,.file⟩ := by
      rw [readdirIterator.item,hpath,hopened,h.efdL_file hfile,hroot,drop_spelled]
      rfl
    rw [treeEntry,hkind,if_pos rfl,(h.reads hfile).2]

theorem ShowsTree.mem_entriesTold (h : ShowsTree v root fs p) (hdir : fs.isDir p)
    (hopts : Unfiltered dirHashOpts) (hit : dirIterator v root dirHashOpts = some it) {e : Entry} :
    e ∈ entriesTold v root it ↔ ∃ rel, rel ≠ [] ∧
      (fs.isDir (p ++ rel) ∧ e = ⟨false,joined rel,[]⟩ ∨
        ∃ content, fs.fileAt (p ++ rel) = some content ∧ e = ⟨true,joined rel,content⟩) := by
  constructor
  · intro hmem
    obtain ⟨i,hi,rfl⟩ := List.mem_map.mp hmem
    obtain ⟨d,hd,rfl⟩ := List.mem_map.mp hi
    obtain ⟨rel,hrel,hpath,hhas⟩ := h.of_met hdir ((readdirIterator.mem_entries hit).mp hd)
    have hentry := h.treeEntry_item hit hrel hpath
    refine ⟨rel,hrel,?_⟩
    by_cases hdir' : fs.isDir (p ++ rel)
    · exact .inl ⟨hdir',hentry.1 hdir'⟩
    · obtain ⟨content,hfile⟩ := h.fileAt hhas hdir'
      exact .inr ⟨content,hfile,hentry.2 content hfile⟩
  · rintro ⟨rel,hrel,hplace⟩
    have hhas : fs.has (p ++ rel) := by
      rcases hplace with ⟨hdir',_⟩ | ⟨content,hfile,_⟩
      · exact FileSystem.has_of_isDir hdir'
      · exact (FileSystem.leaf_of_fileAt hfile).1
    obtain ⟨c,hmet⟩ := h.met hrel hhas
    rw [← hopts.hidden] at hmet
    have hmem : (spelled root rel,c) ∈ it.entries v := (readdirIterator.mem_entries hit).mpr hmet
    have hentry := @ShowsTree.treeEntry_item _ _ _ _ rel _ _ h hit (spelled root rel,c) hrel rfl
    refine List.mem_map.mpr ⟨_,List.mem_map.mpr ⟨_,hmem,rfl⟩,?_⟩
    rcases hplace with ⟨hdir',rfl⟩ | ⟨content,hfile,rfl⟩
    · exact hentry.1 hdir'
    · exact hentry.2 content hfile

end Told

section Both

variable {h : HashFunctions} {v₁ v₂ : View} {root₁ root₂ : Str} {fs₁ fs₂ : FileSystem} {p₁ p₂ : Path}
  {algo₁ algo₂ dirHashOpts : Byte} {it₁ it₂ : readdirIterator}

theorem sameTree_of_entries (h₁ : ShowsTree v₁ root₁ fs₁ p₁) (h₂ : ShowsTree v₂ root₂ fs₂ p₂)
    (hdir₁ : fs₁.isDir p₁) (hdir₂ : fs₂.isDir p₂) (hopts : Unfiltered dirHashOpts)
    (hit₁ : dirIterator v₁ root₁ dirHashOpts = some it₁)
    (hit₂ : dirIterator v₂ root₂ dirHashOpts = some it₂)
    (hentries : entriesTold v₁ root₁ it₁ = entriesTold v₂ root₂ it₂) :
    (∀ rel, fs₁.isDir (p₁ ++ rel) → fs₂.isDir (p₂ ++ rel)) ∧
      ∀ rel content, fs₁.fileAt (p₁ ++ rel) = some content → fs₂.fileAt (p₂ ++ rel) = some content := by
  have hplace : ∀ rel rel' : Path, rel ≠ [] → rel' ≠ [] → fs₁.has (p₁ ++ rel) → fs₂.has (p₂ ++ rel') →
      joined rel = joined rel' → rel = rel' := fun rel rel' hrel hrel' hhas hhas' =>
    joined_inj hrel hrel' (FileSystem.proper_of_mem hhas) (FileSystem.proper_of_mem hhas')
  constructor
  · intro rel hdir
    by_cases hrel : rel = []
    · rwa [hrel,List.append_nil]
    · have hmem := (h₁.mem_entriesTold hdir₁ hopts hit₁).mpr ⟨rel,hrel,.inl ⟨hdir,rfl⟩⟩
      rw [hentries] at hmem
      obtain ⟨rel',hrel',⟨hdir',heq⟩ | ⟨content,_,heq⟩⟩ := (h₂.mem_entriesTold hdir₂ hopts hit₂).mp hmem
      · rwa [hplace rel rel' hrel hrel' (FileSystem.has_of_isDir hdir) (FileSystem.has_of_isDir hdir')
          (congrArg Entry.path heq)]
      · cases congrArg Entry.isFile heq
  · intro rel content hfile
    have hleaf := FileSystem.leaf_of_fileAt hfile
    by_cases hrel : rel = []
    · obtain ⟨m,hm⟩ := FileSystem.isDir_iff.mp hdir₁
      rw [hrel,List.append_nil,FileSystem.fileAt,hm] at hfile
      cases hfile
    · have hmem := (h₁.mem_entriesTold hdir₁ hopts hit₁).mpr ⟨rel,hrel,.inr ⟨content,hfile,rfl⟩⟩
      rw [hentries] at hmem
      obtain ⟨rel',hrel',⟨_,heq⟩ | ⟨content',hfile',heq⟩⟩ :=
        (h₂.mem_entriesTold hdir₂ hopts hit₂).mp hmem
      · cases congrArg Entry.isFile heq
      · have hleaf' := FileSystem.leaf_of_fileAt hfile'
        have hcontent : content = content' := congrArg Entry.content heq
        rw [hplace rel rel' hrel hrel' hleaf.1 hleaf'.1 (congrArg Entry.path heq),hcontent]
        exact hfile'

/-- The stream is that of the entries, which are the places below the root. Two trees with the same stream are
the same where their entries are, one after the other, of the same kinds with paths and contents of the same
lengths. -/
theorem sameTree_of_dirStream (h₁ : ShowsTree v₁ root₁ fs₁ p₁) (h₂ : ShowsTree v₂ root₂ fs₂ p₂)
    (hdir₁ : fs₁.isDir p₁) (hdir₂ : fs₂.isDir p₂) (hopts : Unfiltered dirHashOpts)
    (hit₁ : dirIterator v₁ root₁ dirHashOpts = some it₁)
    (hit₂ : dirIterator v₂ root₂ dirHashOpts = some it₂) :
    dirStream h v₁ root₁ algo₁ dirHashOpts =
        some (some ((entriesTold v₁ root₁ it₁).flatMap Entry.bytes)) ∧
      (∀ e, e ∈ entriesTold v₁ root₁ it₁ ↔ ∃ rel, rel ≠ [] ∧
        (fs₁.isDir (p₁ ++ rel) ∧ e = ⟨false,joined rel,[]⟩ ∨
          ∃ content, fs₁.fileAt (p₁ ++ rel) = some content ∧ e = ⟨true,joined rel,content⟩)) ∧
      ((entriesTold v₁ root₁ it₁).map Entry.frame = (entriesTold v₂ root₂ it₂).map Entry.frame →
        dirStream h v₁ root₁ algo₁ dirHashOpts = dirStream h v₂ root₂ algo₂ dirHashOpts →
          SameTree fs₁ p₁ fs₂ p₂) := by
  refine ⟨dirStream_entriesTold hopts hit₁,fun e => h₁.mem_entriesTold hdir₁ hopts hit₁,fun hframes hstream => ?_⟩
  rw [dirStream_entriesTold hopts hit₁,dirStream_entriesTold hopts hit₂] at hstream
  have hbytes := Option.some.inj (Option.some.inj hstream)
  have hentries := entries_eq_of_frames hframes hbytes
  obtain ⟨hdirs,hfiles⟩ := sameTree_of_entries h₁ h₂ hdir₁ hdir₂ hopts hit₁ hit₂ hentries
  obtain ⟨hdirs',hfiles'⟩ := sameTree_of_entries h₂ h₁ hdir₂ hdir₁ hopts hit₂ hit₁ hentries.symm
  constructor
  · intro rel
    exact Bool.eq_iff_iff.mpr ⟨hdirs rel,hdirs' rel⟩
  · intro rel
    refine Option.ext fun content => ?_
    exact ⟨hfiles rel content,hfiles' rel content⟩

end Both

theorem sameTree_twoLetters : SameTree twoLetters [] twoLetters [] :=
  (@sameTree_of_dirStream crcHashes _ _ _ _ _ _ _ _ 0 0 1 _ _
    (@showsTree_twoLetters [47,100] [[97],[98]] (by decide) (by decide))
    (@showsTree_twoLetters [47,101,47] [[98],[97]] (by decide) (by decide))
    (by decide) (by decide) ⟨by decide,by decide,by decide,by decide⟩ rfl rfl).2.2 (by decide +kernel)
    (by decide +kernel)

section LoneFile

variable (c : Name) (content : Str) (hc : ProperName c)

include hc in
theorem loneFile_wellFormed :
    FileSystem.WellFormed [([],.dir 0o755),([c],.file content 0o644)] := by
  refine ⟨by simp,rfl,fun q hq => ?_⟩
  rcases List.mem_cons.mp hq with rfl | hq
  · exact .inl rfl
  · obtain rfl := List.mem_singleton.mp hq
    exact .inr ⟨rfl,fun d hd => Option.some.inj hd ▸ hc⟩

def loneFile : FileSystem := .ofEntries _ (loneFile_wellFormed c content hc)

def loneFileAt : View where
  lstat s := if s = flatRoot then some (plainStat .dir)
    else if s = spelled flatRoot [c] then some (plainStat .file) else none
  stat _ := none
  opendir s := if s = flatRoot then some [c] else none
  openRead s := if s = pathConcat flatRoot c then
    some ⟨[content].filter (· ≠ []),onePiece_ne_nil content,false⟩ else none
  username _ := none
  errno _ := 2
  errno_pos := errno_two_pos
  errno_lt := errno_two_lt
  short s ns h := by
    split_ifs at h with hs
    rw [hs]
    decide

theorem loneFile_cases {rel : Path} {n : Node} (h : (loneFile c content hc).node rel = some n) :
    (rel = [] ∧ n = .dir 0o755) ∨ (rel = [c] ∧ n = .file content 0o644) := by
  have hmem : rel ∈ (loneFile c content hc).paths :=
    ((loneFile c content hc).mem_paths rel).mpr (by rw [h]; rfl)
  rcases List.mem_cons.mp hmem with rfl | hmem
  · exact .inl ⟨rfl,(Option.some.inj h).symm⟩
  · obtain rfl := List.mem_singleton.mp hmem
    have hnode : (loneFile c content hc).node [c] = some (.file content 0o644) := by
      simp [loneFile,FileSystem.ofEntries,List.lookup_cons]
    rw [hnode] at h
    exact .inr ⟨rfl,(Option.some.inj h).symm⟩

theorem showsTree_loneFile : ShowsTree (loneFileAt c content) flatRoot (loneFile c content hc) [] := by
  have hspelled : spelled flatRoot [] = flatRoot := by simp [spelled]
  have hne : spelled flatRoot [c] ≠ flatRoot := fun h => by
    have hlen := congrArg List.length h
    simp [spelled] at hlen
  have hchildren : (loneFile c content hc).children [] = [c] := rfl
  refine ⟨?_,?_,?_,?_,?_⟩
  · intro rel t h
    rcases loneFile_cases c content hc h with ⟨_,hn⟩ | ⟨_,hn⟩ <;> cases hn
  · intro rel h
    obtain ⟨m,hm⟩ := FileSystem.isDir_iff.mp h
    rcases loneFile_cases c content hc hm with ⟨rfl,_⟩ | ⟨_,hn⟩
    · have hopen : (loneFileAt c content).opendir (spelled flatRoot []) = some [c] := by
        simp [loneFileAt,hspelled]
      exact ⟨[c],hopen,hchildren ▸ List.Perm.refl _⟩
    · cases hn
  · intro rel hrel h
    obtain ⟨m,hm⟩ := FileSystem.isDir_iff.mp h
    rcases loneFile_cases c content hc hm with ⟨rfl,_⟩ | ⟨_,hn⟩
    · exact absurd rfl hrel
    · cases hn
  · intro rel content' h
    obtain ⟨m,hm⟩ := FileSystem.node_of_fileAt h
    rcases loneFile_cases c content hc hm with ⟨_,hn⟩ | ⟨rfl,_⟩
    · cases hn
    · have hstat : (loneFileAt c content).lstat (spelled flatRoot [c]) = some (plainStat .file) := by
        simp [loneFileAt,hne]
      exact ⟨_,hstat,rfl⟩
  · intro rel content' h
    obtain ⟨m,hm⟩ := FileSystem.node_of_fileAt h
    rcases loneFile_cases c content hc hm with ⟨_,hn⟩ | ⟨rfl,hn⟩
    · cases hn
    · cases hn
      have hjoined : joined [c] = c := by simp [joined]
      have hopen : (loneFileAt c content).openRead (pathConcat flatRoot (joined [c])) =
          some ⟨[content].filter (· ≠ []),fun s hs => by simpa using (List.mem_filter.mp hs).2,false⟩ :=
        if_pos (by rw [hjoined])
      refine ⟨_,hopen,rfl,?_⟩
      by_cases hempty : content = []
      · simp [Reading.content,hempty]
      · simp [Reading.content,hempty]

end LoneFile

/-- "b" in the file "a", and nothing in the file "ba". -/
theorem dirStream_loneFile :
    ShowsTree (loneFileAt [97] [98]) flatRoot (loneFile [97] [98] (by decide)) [] ∧
    ShowsTree (loneFileAt [98,97] []) flatRoot (loneFile [98,97] [] (by decide)) [] ∧
    dirStream crcHashes (loneFileAt [97] [98]) flatRoot 0 1 =
      dirStream crcHashes (loneFileAt [98,97] []) flatRoot 0 1 ∧
    ¬ SameTree (loneFile [97] [98] (by decide)) [] (loneFile [98,97] [] (by decide)) [] := by
  refine ⟨showsTree_loneFile _ _ _,showsTree_loneFile _ _ _,by decide +kernel,fun hsame => ?_⟩
  have hfile := hsame.fileAt [[97]]
  revert hfile
  decide

end RootHelper
