import RootHelper.DirListings
import RootHelper.RecordWrites
import RootHelper.RemoteSessions
import RootHelper.TraversedTrees
import RootHelper.UploadRoundTrip

/-!
What a search that nobody cancels sends: the places below its base paths whose names match, each once, as
records that read back.
-/

set_option autoImplicit false

namespace RootHelper
open Posix Control DirIterator Preorder

def readFound (s : Str) : Option (find_resp_t × Str) := do
  let (fileItem,s) ← readEntry s
  let (len,s) ← takeBytes 1 s
  if fromLittleEndian len = 0 then some (⟨fileItem,[],0⟩,s)
  else do
    let (contentAround,s) ← takeBytes (fromLittleEndian len) s
    let (offset,s) ← takeBytes 8 s
    some (⟨fileItem,contentAround,.ofNat (fromLittleEndian offset)⟩,s)

/-- Records up to one terminator, with nothing behind it. -/
def readFoundList : Nat → Str → Option (List find_resp_t)
  | 0, _ => none
  | turns+1, s =>
    if s.take 2 = [0,0] then if s.length = 2 then some [] else none
    else do
      let (entry,s) ← readFound s
      let entries ← readFoundList turns s
      some (entry :: entries)

def readSearch (s : Str) : Option (List find_resp_t) :=
  if s.head? = some RESPONSE_OK then readFoundList s.length s.tail else none

section Statements

variable (v : View) (rq : FindRequest) (flags : Nat)

/-- The name contains the pattern, where asked for in any case of the letters. -/
def Matches (name : Name) : Prop :=
  let upper := fun s => if b2 rq.searchFlags then toUppercaseStringCopy s else s
  upper rq.namepattern <:+: upper name

instance (name : Name) : Decidable (Matches rq name) := by
  unfold Matches
  infer_instance

/-- The record of an entry; nothing where it does not match or cannot be looked at. -/
def foundEntry (filepathname haystack : Str) : Option find_resp_t :=
  if Matches rq haystack then
    (assemble_ls_resp_from_filepath v filepathname filepathname).map fun fileItem => ⟨fileItem,[],0⟩
  else none

/-- The record of a place below `basepath`; the searches put their paths together in different ways. -/
def foundAt (basepath : Str) (rel : Path) : Option find_resp_t :=
  let name := rel.getLastD []
  foundEntry v rq (if b1 flags then pathConcat basepath name else spelled basepath rel) name

/-- A search looks at the place: with `b1` at the entries of the directory only. -/
def Searched (a : Answers) (fs : FileSystem) (place : Str → Option Path) (basepath : Str) (rel : Path) :
    Prop :=
  (a.opendir basepath).isSome ∧ ∃ p, place basepath = some p ∧
    if b1 flags then ∃ c ∈ fs.children p, rel = [c]
    else absolute basepath ∧ Descendant a fs basepath p rel

end Statements

section Sending

variable {ε σ : Type} {inOutDesc : ServerEnd ε σ} {at_ : σ → Str → Prop} {v : View}
  {readlink : Str → Option Str} {threadExit : ε} {rq : FindRequest} {flags : Nat}

/-- As it is written: the name cut to the length there is room for. -/
def find_resp_t.sentBytes (e : find_resp_t) : Str := e.fileItem.cut.bytes ++ [0]

theorem wp_writefind_resp {write : Str → EStateM ε σ Int} (h : Completes write at_) {fileItem : ls_resp_t}
    (hperm : fileItem.permissions.length = 10) {cs : Str} {s : σ} (hs : at_ s cs) :
    wp (writefind_resp write ⟨fileItem,[],0⟩)
      (fun r t => r = 0 ∧ at_ t (cs ++ find_resp_t.sentBytes ⟨fileItem,[],0⟩)) (fun _ _ => False) s := by
  rw [writefind_resp,wp_bind]
  refine wp_mono (wp_writels_resp_cut h hperm hs) (fun r t hr => ?_) fun _ _ h => h
  obtain ⟨rfl,ht⟩ := hr
  dsimp only
  rw [if_neg (by simp)]
  refine h.before ht fun u hu => ?_
  rw [if_neg (by simp)]
  refine ⟨rfl,?_⟩
  rw [List.append_assoc] at hu
  exact hu

theorem prints_findEntry (h : Completes inOutDesc.write at_) (filepathname haystack : Str) :
    Prints at_ (findEntry inOutDesc v threadExit (pure false) rq filepathname haystack filepathname)
      ((foundEntry v rq filepathname haystack).toList.flatMap find_resp_t.sentBytes) := by
  intro s cs hs
  rw [findEntry,wp_bind,wp_pure,if_neg (by simp),foundEntry]
  change wp (if Matches rq haystack then _ else _) _ _ s
  by_cases hmatch : Matches rq haystack
  · rw [if_pos hmatch,if_pos hmatch]
    cases hentry : assemble_ls_resp_from_filepath v filepathname filepathname with
    | none => simpa using hs
    | some fileItem =>
      obtain ⟨st,-,rfl⟩ := Option.map_eq_some_iff.mp hentry
      dsimp only
      rw [wp_bind]
      refine wp_mono (wp_writefind_resp h (by simp) hs) (fun r t hr => ?_) fun _ _ h => h
      obtain ⟨rfl,ht⟩ := hr
      rw [if_neg (by simp)]
      simpa using ht
  · rw [if_neg hmatch,if_neg hmatch]
    simpa using hs

theorem flatMap_filterMap_cons {α β γ : Type} (f : α → Option β) (g : β → List γ) (x : α) (l : List α) :
    ((x :: l).filterMap f).flatMap g = (f x).toList.flatMap g ++ (l.filterMap f).flatMap g := by
  cases h : f x <;> simp [h]

theorem prints_findPlain (h : Completes inOutDesc.write at_) (basepath : Str) (names : List Name) :
    Prints at_ (findPlain inOutDesc v threadExit (pure false) rq basepath names)
      ((names.filterMap fun c => foundEntry v rq (pathConcat basepath c) c).flatMap
        find_resp_t.sentBytes) := by
  induction names with
  | nil => exact prints_pure ()
  | cons d_name names ih =>
    rw [flatMap_filterMap_cons]
    exact (prints_findEntry h _ _).bind fun _ => ih

theorem prints_findRecursive (h : Completes inOutDesc.write at_) {dirIt : DirIterator}
    {items : List Current} (hitems : Iterates { v.answers with readlink := readlink } dirIt items)
    {turns : Nat} (hturns : items.length < turns) :
    Prints at_ (findRecursive inOutDesc v readlink threadExit (pure false) rq turns dirIt)
      ((items.filterMap fun i => foundEntry v rq i.current i.currentName).flatMap
        find_resp_t.sentBytes) := by
  obtain ⟨steps,it',hruns,hend,rfl⟩ := hitems
  induction hruns generalizing turns with
  | start it =>
    cases turns with
    | zero => simp at hturns
    | succ turns =>
      rw [findRecursive,hend]
      exact prints_pure ()
  | @next it it₁ it'' path S steps _ hnext _ ih =>
    cases turns with
    | zero => simp at hturns
    | succ turns =>
      rw [findRecursive,hnext,List.map_cons,flatMap_filterMap_cons]
      exact (prints_findEntry h _ _).bind fun _ => ih hend (by simpa using hturns)

def FoundBelow (v : View) (readlink : Str → Option Str) (rq : FindRequest) (flags : Nat) (basepath : Str)
    (found : List find_resp_t) : Prop :=
  if b1 flags then
    found = ((v.opendir basepath).getD []).filterMap fun c => foundEntry v rq (pathConcat basepath c) c
  else
    ∃ items, Iterates { v.answers with readlink := readlink }
        (createIterator { v.answers with readlink := readlink } (smartSearch basepath)) items ∧
      found = items.filterMap fun i => foundEntry v rq i.current i.currentName

theorem prints_findBelow (h : Completes inOutDesc.write at_) {basePaths : List Str}
    {found : List (List find_resp_t)} (hfound : List.Forall₂ (FoundBelow v readlink rq flags) basePaths found) :
    ∃ n, ∀ turns, n ≤ turns →
      Prints at_ (findBelow inOutDesc v readlink threadExit (pure false) rq turns flags basePaths)
        (found.flatten.flatMap find_resp_t.sentBytes) := by
  induction hfound with
  | nil => exact ⟨0,fun _ _ => prints_pure ()⟩
  | @cons basepath l basePaths found hl _ ih =>
    obtain ⟨n,hn⟩ := ih
    rw [FoundBelow] at hl
    simp only [List.flatten_cons,List.flatMap_append,findBelow]
    split_ifs at hl ⊢ with hflag
    · subst hl
      exact ⟨n,fun turns hturns => (prints_findPlain h _ _).bind fun _ => hn turns hturns⟩
    · obtain ⟨items,hitems,rfl⟩ := hl
      refine ⟨max n (items.length+1),fun turns hturns => ?_⟩
      rw [Nat.max_le] at hturns
      exact (prints_findRecursive h hitems hturns.2).bind fun _ => hn turns hturns.1

end Sending

section Back

variable {e : find_resp_t} {es : List find_resp_t}

/-- A record as a search makes it. -/
structure find_resp_t.Plain (e : find_resp_t) : Prop where
  fits : e.fileItem.Fits
  noContent : e.contentAround = []
  noOffset : e.offset = 0

theorem readFound_bytes (h : e.Plain) (rest : Str) : readFound (e.sentBytes ++ rest) = some (e,rest) := by
  obtain ⟨fileItem,contentAround,offset⟩ := e
  obtain ⟨hfits,rfl,rfl⟩ := h
  rw [find_resp_t.sentBytes,ls_resp_t.cut_of_fits hfits,List.append_assoc,readFound,
    readEntry_bytes hfits]
  rfl

theorem readFoundList_bytes (h : ∀ e ∈ es, e.Plain) {turns : Nat} (hturns : es.length < turns) :
    readFoundList turns (es.flatMap find_resp_t.sentBytes ++ littleEndian 2 0) = some es := by
  induction es generalizing turns with
  | nil =>
    obtain ⟨turns,rfl⟩ := Nat.exists_eq_add_of_lt hturns
    rfl
  | cons e es ih =>
    cases turns with
    | zero => simp at hturns
    | succ turns =>
      have he := h e List.mem_cons_self
      rw [List.flatMap_cons,List.append_assoc]
      have hfront : (e.sentBytes ++ (es.flatMap find_resp_t.sentBytes ++ littleEndian 2 0)).take 2 =
          littleEndian 2 e.fileItem.filename.length := by
        rw [find_resp_t.sentBytes,ls_resp_t.cut_of_fits he.fits,ls_resp_t.bytes,List.append_assoc,
          List.append_assoc]
        exact List.take_left' (length_littleEndian _ _)
      have hne : littleEndian 2 e.fileItem.filename.length ≠ [0,0] := by
        intro h0
        have hread := congrArg fromLittleEndian h0
        have hpow : 256^2 = 65536 := rfl
        rw [fromLittleEndian_littleEndian,hpow,Nat.mod_eq_of_lt he.fits.2.1] at hread
        exact he.fits.1 (List.length_eq_zero_iff.mp hread)
      rw [readFoundList,hfront,if_neg hne,readFound_bytes he]
      simp only [Option.bind_eq_bind,Option.bind_some]
      rw [ih (fun e he => h e (List.mem_cons_of_mem _ he)) (by simpa using hturns)]
      rfl

theorem readSearch_bytes (h : ∀ e ∈ es, e.Plain) :
    readSearch (RESPONSE_OK :: (es.flatMap find_resp_t.sentBytes ++ littleEndian 2 0)) = some es := by
  rw [readSearch,List.head?_cons,if_pos rfl]
  refine readFoundList_bytes h ?_
  have hlen := length_le_flatMap (l := es) (f := find_resp_t.sentBytes) fun e _ => by
    simp [find_resp_t.sentBytes]
  rw [List.length_cons,List.length_append]
  omega

end Back

section Search

variable {v : View} {readlink : Str → Option Str} {rq : FindRequest} {flags : Nat} {fs : FileSystem}
  {place : Str → Option Path} {root : Str} {rel : Path}

theorem kids_smartSearch {a : Answers} (hlinks : ∀ s st, a.lstat s = some st → st.kind ≠ .link) :
    kids a (smartSearch root) = kids a (unfiltered root .FULL .RECURSIVE false) := by
  have hvisited : ∀ path, visited a (smartSearch root) path =
      visited a (unfiltered root .FULL .RECURSIVE false) path := by
    intro path
    have hL : DirIterator.efdL a path ≠ .L := by
      rw [ne_eq,efdL_L]
      rintro ⟨⟨st,hst,hkind⟩,-⟩
      exact hlinks path st hst hkind
    by_cases hd : DirIterator.efdL a path = .d <;>
      simp [visited,smartSearch,unfiltered,smartVisitSymlink,hd,hL]
  funext rel
  unfold kids
  rw [hvisited]
  rfl

theorem iterates_unopened {a : Answers} {o : DirOptions} (h : ¬ (absolute o.dir ∧ (a.opendir o.dir).isSome)) :
    Iterates a (createIterator a o) [] := by
  refine ⟨[],_,.start _,?_,rfl⟩
  rw [DirIterator.next,createIterator_unopened h]

theorem foundBelow_searched (h : Answers.Shows { v.answers with readlink := readlink } fs place)
    (hlinks : ∀ s st, v.lstat s = some st → st.kind ≠ .link) (hnul : NulFree root) :
    ∃ l : List Path, FoundBelow v readlink rq flags root (l.filterMap (foundAt v rq flags root)) ∧
      (∀ rel, rel ∈ l ↔ Searched flags { v.answers with readlink := readlink } fs place root rel) ∧
      l.Pairwise fun r r' => ¬ r' <+: r := by
  by_cases hflag : b1 flags = true
  · simp only [FoundBelow,Searched,if_pos hflag]
    change ∃ l : List Path, _ ∧ (∀ rel, rel ∈ l ↔ (v.opendir root).isSome ∧ _) ∧ _
    cases hopen : v.opendir root with
    | none => exact ⟨[],by simp,by simp,.nil⟩
    | some names =>
      obtain ⟨p,hp,_,hperm⟩ := h.opendir hopen
      refine ⟨names.map fun c => [c],?_,fun rel => ?_,?_⟩
      · rw [List.filterMap_map]
        refine List.filterMap_congr fun c _ => ?_
        simp [foundAt,hflag]
      · simp only [List.mem_map,Option.isSome_some,true_and,hp,Option.some.injEq,exists_eq_left']
        constructor
        · rintro ⟨c,hc,rfl⟩
          exact ⟨c,hperm.subset hc,rfl⟩
        · rintro ⟨c,hc,rfl⟩
          exact ⟨c,hperm.symm.subset hc,rfl⟩
      · rw [List.pairwise_map]
        refine (h.names hopen).1.imp fun hne hpre => hne ?_
        have heq := List.IsPrefix.eq_of_length hpre rfl
        simpa using heq.symm
  · simp only [FoundBelow,Searched,if_neg hflag]
    by_cases hopen : absolute root ∧ (v.opendir root).isSome
    · obtain ⟨habs,hsome⟩ := hopen
      obtain ⟨names,hopen⟩ := Option.isSome_iff_exists.mp hsome
      obtain ⟨p,hp,_,_⟩ := h.opendir hopen
      have hroot : OpenDir { v.answers with readlink := readlink } root [] :=
        ⟨by rw [spelled_nil]; exact hsome,fun hne => absurd rfl hne⟩
      have hdepth := @shallow_recursive _ fs place root p .FULL false h hnul hp hroot
      rw [← kids_smartSearch hlinks] at hdepth
      refine ⟨below (kids { v.answers with readlink := readlink } (smartSearch root))
        (fs.paths.map List.length).sum [],⟨_,iterates_below habs hopen hdepth,?_⟩,fun rel => ?_,
        pairwise_below fun rel _ => nodup_kids h⟩
      · rw [List.filterMap_map]
        refine List.filterMap_congr fun rel _ => ?_
        simp [foundAt,hflag,itemOf,pathShown,smartSearch]
      · rw [mem_below]
        constructor
        · rintro ⟨r,hne,_,hr,rfl⟩
          rw [kids_smartSearch hlinks] at hr
          obtain ⟨hhas,habove⟩ := (leads_recursive h hnul hp hroot).mp hr
          exact ⟨hsome,p,hp,habs,hne,hhas,habove⟩
        · rintro ⟨_,q,hq,_,hne,hhas,habove⟩
          obtain rfl := Option.some.inj (hp.symm.trans hq)
          have hr := (@leads_recursive _ fs place root p rel .FULL false h hnul hp hroot).mpr ⟨hhas,habove⟩
          rw [← kids_smartSearch hlinks] at hr
          exact ⟨rel,hne,hdepth rel hr,hr,rfl⟩
    · refine ⟨[],⟨[],iterates_unopened hopen,rfl⟩,fun rel => ?_,.nil⟩
      refine iff_of_false (by simp) ?_
      rintro ⟨hsome,_,_,habs,_⟩
      exact hopen ⟨habs,hsome⟩

theorem exists_forall₂ {α β : Type} {P : α → β → Prop} {l : List α} (h : ∀ x ∈ l, ∃ y, P x y) :
    ∃ ys, List.Forall₂ P l ys := by
  induction l with
  | nil => exact ⟨[],.nil⟩
  | cons x l ih =>
    obtain ⟨y,hy⟩ := h x List.mem_cons_self
    obtain ⟨ys,hys⟩ := ih fun z hz => h z (List.mem_cons_of_mem _ hz)
    exact ⟨y :: ys,.cons hy hys⟩

theorem forall₂_zip_map {α β γ : Type} {R : α → β → Prop} {S : α → γ → Prop} {f : α × β → γ}
    (hf : ∀ x y, R x y → S x (f (x,y))) {l : List α} {l' : List β} (h : List.Forall₂ R l l') :
    List.Forall₂ S l ((l.zip l').map f) := by
  induction h with
  | nil => exact .nil
  | cons hxy _ ih => exact .cons (hf _ _ hxy) ih

def findEnd : ServerEnd Stop Conn := ⟨connDesc,writeOnce,close⟩

/-- It is open and has sent these bytes. -/
def Answering (k : Conn) (cs : Str) : Prop := ∃ inp, Tells inp k cs

theorem completes_writeOnce : Completes writeOnce Answering := by
  intro buf k cs ⟨inp,hinp,hroom,hopen,hbytes⟩
  rw [writeOnce,wp_bind,wp_get,if_neg (by simp [hroom,hopen]),wp_bind,wp_set]
  refine ⟨rfl,inp,hinp,by simp [hroom],hopen,?_⟩
  rw [← hbytes]
  simp [Conn.bytes,Chunk.encode]

theorem writes_findEnd : findEnd.desc.toSink.Writes Answering := fun c k cs ⟨inp,hk⟩ =>
  wp_mono (conn_writes inp c k cs hk) (fun _ _ h => ⟨inp,h⟩) fun _ _ h => h

theorem plain_foundAt {e : find_resp_t}
    (h : Searched flags { v.answers with readlink := readlink } fs place root rel)
    (he : foundAt v rq flags root rel = some e) (hshort : e.fileItem.filename.length < 65536) : e.Plain := by
  have hentry : ∀ path haystack, path ≠ [] → foundEntry v rq path haystack = some e → e.Plain := by
    intro path haystack hne hfound
    rw [foundEntry] at hfound
    split_ifs at hfound
    obtain ⟨fileItem,hitem,rfl⟩ := Option.map_eq_some_iff.mp hfound
    obtain ⟨st,-,rfl⟩ := Option.map_eq_some_iff.mp hitem
    exact ⟨⟨hne,hshort,by simp⟩,rfl,rfl⟩
  obtain ⟨_,p,_,h⟩ := h
  rw [foundAt] at he
  refine hentry _ _ ?_ he
  split_ifs at h ⊢
  · exact pathConcat_ne_nil _ _
  · obtain ⟨r,c,rfl⟩ := (List.eq_nil_or_concat' rel).resolve_left h.2.ne_nil
    simp [spelled_concat]

/-- For each base path the answer holds, in the order of one traversal, the record of every place below it
whose name matches and that can be looked at, and nothing else. -/
theorem find_exact (h : Answers.Shows { v.answers with readlink := readlink } fs place)
    (hlinks : ∀ s st, v.lstat s = some st → st.kind ≠ .link)
    (hnul : ∀ base ∈ rq.basePaths, NulFree base)
    (hshort : ∀ base ∈ rq.basePaths, ∀ rel,
      Searched flags { v.answers with readlink := readlink } fs place base rel →
      ∀ e ∈ foundAt v rq flags base rel, e.fileItem.filename.length < 65536) :
    ∃ found : List (List Path),
      List.Forall₂ (fun base l => (∀ rel, rel ∈ l ↔
          Searched flags { v.answers with readlink := readlink } fs place base rel) ∧
        l.Pairwise fun r r' => ¬ r' <+: r) rq.basePaths found ∧
      ∃ n, ∀ turns, n ≤ turns → ∀ k, Answering k [] →
        ∃ k', performSearch findEnd v readlink .threadExit (pure false) rq turns flags k = .ok () k' ∧
          k'.closed = true ∧ readSearch k'.bytes = some
            ((rq.basePaths.zip found).flatMap fun x => x.2.filterMap (foundAt v rq flags x.1)) := by
  obtain ⟨found,hall⟩ := exists_forall₂ fun base hbase =>
    @foundBelow_searched v readlink rq flags fs place base h hlinks (hnul base hbase)
  refine ⟨found,hall.imp fun _ _ hl => hl.2,?_⟩
  let es := (rq.basePaths.zip found).map fun x => x.2.filterMap (foundAt v rq flags x.1)
  have hes : List.Forall₂ (FoundBelow v readlink rq flags) rq.basePaths es :=
    forall₂_zip_map (fun _ _ hl => hl.1) hall
  have hplain : ∀ e ∈ es.flatten, e.Plain := by
    intro e he
    obtain ⟨l,hl,he⟩ := List.mem_flatten.mp he
    obtain ⟨⟨base,rels⟩,hx,rfl⟩ := List.mem_map.mp hl
    obtain ⟨rel,hrel,hfound⟩ := List.mem_filterMap.mp he
    have hsearched := (((List.forall₂_iff_zip.mp hall).2 hx).2.1 rel).mp hrel
    exact plain_foundAt hsearched hfound (hshort base (List.of_mem_zip hx).1 rel hsearched e hfound)
  obtain ⟨n,hn⟩ := @prints_findBelow _ _ findEnd _ v readlink Stop.threadExit rq flags completes_writeOnce _ _ hes
  refine ⟨n,fun turns hturns k hk => ?_⟩
  have hreply : wp (performSearch findEnd v readlink .threadExit (pure false) rq turns flags)
      (fun _ k' => k'.closed = true ∧ k'.bytes =
        RESPONSE_OK :: (es.flatten.flatMap find_resp_t.sentBytes ++ littleEndian 2 0))
      (fun _ _ => False) k := by
    rw [performSearch]
    refine (@prints_response _ _ _ _ writes_findEnd 0).before hk fun _ k₁ h₁ => ?_
    refine (hn turns hturns).before h₁ fun _ k₂ h₂ => ?_
    refine Prints.before (writes_findEnd (.u16 0)) h₂ fun _ k₃ h₃ => ?_
    obtain ⟨inp,_,_,_,hbytes⟩ := h₃
    exact ⟨rfl,by simpa [Chunk.encode,Conn.bytes] using hbytes⟩
  obtain ⟨_,k',hrun,hclosed,hbytes⟩ := ok_of_wp hreply
  refine ⟨k',hrun,hclosed,?_⟩
  rw [hbytes,readSearch_bytes hplain,List.flatMap_def]

end Search

def smallTreeAnswers : Answers :=
  System.calm.toKernel.answers smallTree fun s => decide (s.length < PATH_MAX)

def smallTreeView : View where
  lstat := smallTreeAnswers.lstat
  stat := smallTreeAnswers.stat
  opendir := smallTreeAnswers.opendir
  openRead _ := none
  username _ := none
  errno _ := 2
  errno_pos := errno_two_pos
  errno_lt := errno_two_lt
  short s ns h := by
    simp only [smallTreeAnswers,Kernel.answers] at h
    split at h
    · split_ifs at h with hread
      simpa using hread.1
    · cases h

/-- Names with an "X" in any case, below "/a". -/
def findsX : FindRequest := ⟨4,[text ['/','a']],text ['X'],[]⟩

theorem find_exact_smallTree :
    ∃ found : List (List Path),
      List.Forall₂ (fun base l => (∀ rel, rel ∈ l ↔ Searched 0
          { smallTreeView.answers with readlink := smallTreeAnswers.readlink } smallTree
          (fun s => (System.calm.toKernel.follow smallTree s).toOption) base rel) ∧
        l.Pairwise fun r r' => ¬ r' <+: r) findsX.basePaths found ∧
      ∃ n, ∀ turns, n ≤ turns → ∀ k, Answering k [] →
        ∃ k', performSearch findEnd smallTreeView smallTreeAnswers.readlink .threadExit (pure false) findsX
            turns 0 k = .ok () k' ∧
          k'.closed = true ∧ readSearch k'.bytes = some ((findsX.basePaths.zip found).flatMap
            fun x => x.2.filterMap (foundAt smallTreeView findsX 0 x.1)) := by
  refine find_exact (System.calm.toKernel.answers_shows smallTree _) ?_ (by decide) ?_
  · intro s st hst
    obtain ⟨n,hn,rfl⟩ := Option.map_eq_some_iff.mp hst
    obtain ⟨q,_,hnode⟩ := Kernel.nodeAt_ok (ok_of_toOption hn)
    rcases node_smallTree hnode with ⟨_,rfl⟩ | ⟨_,rfl⟩ | ⟨_,rfl⟩ | ⟨_,rfl⟩ <;> simp [Node.stat,Node.kind]
  · intro base hbase rel ⟨_,p,hp,hrel⟩ e he
    obtain rfl := List.mem_singleton.mp hbase
    obtain rfl : [text ['a']] = p := Option.some.inj ((by decide +kernel :
      (System.calm.toKernel.follow smallTree (text ['/','a'])).toOption = some [text ['a']]).symm.trans hp)
    rw [if_neg (by decide)] at hrel
    have hname : e.fileItem.filename = spelled (text ['/','a']) rel := by
      simp only [foundAt,foundEntry,if_neg (show ¬ b1 0 = true by decide)] at he
      split_ifs at he
      · obtain ⟨fileItem,hitem,rfl⟩ := Option.map_eq_some_iff.mp he
        obtain ⟨st,_,rfl⟩ := Option.map_eq_some_iff.mp hitem
        rfl
      · cases he
    obtain ⟨n,hn⟩ := FileSystem.has_iff.mp hrel.2.there
    rw [hname]
    rcases node_smallTree hn with ⟨hpath,_⟩ | ⟨hpath,_⟩ | ⟨hpath,_⟩ | ⟨hpath,_⟩
    · simp at hpath
    · obtain rfl : rel = [] := by simpa using hpath
      decide
    · obtain rfl : rel = [text ['e']] := by simpa using hpath
      decide
    · obtain rfl : rel = [text ['x']] := by simpa using hpath
      decide

end RootHelper
