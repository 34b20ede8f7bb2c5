import RootHelper.LinkCycles
import RootHelper.WideChars

/-!
What goes into an archive: all that is below the source folder, or the chosen entries of it, each with
what is below it. Links are followed; what the archive library finds out about a path is its own.
-/

set_option autoImplicit false

namespace RootHelper
open Posix Encodings Preorder DirIterator

structure CFileInfo where
  Attrib : UInt32
  Size : UInt64
  CTime : UInt64
  ATime : UInt64
  MTime : UInt64
  deriving DecidableEq, Repr

structure CDirItem extends CFileInfo where
  Name : WStr
  FullPath : WStr
  deriving DecidableEq, Repr

/-- What a path that is not absolute stands for, once the working directory is the source folder. -/
structure SrcFolder where
  stat : Str → Option Stat
  /-- The archive library's. -/
  Find : Str → Option CFileInfo

namespace Compress

/-- What ends the collection of items: an error with its number, or the end of the turns. -/
inductive Failure where
  | outOfTurns
  | error (errno : Nat)
  deriving DecidableEq, Repr

section Model

variable (a : Answers) (folder : SrcFolder) (unset : List CDirItem → UInt32) (turns : Nat)

def dirItem (fi : CFileInfo) (u : WStr) : CDirItem := { fi with Name := u, FullPath := u }

/-- `unset` is what the variable in the conversion happens to hold. -/
def addItem (errno : Nat) (curEntString : Str) (dirItems : List CDirItem) :
    Except Failure (List CDirItem) :=
  match folder.Find curEntString with
  | none => .error (.error errno)
  | some fi => .ok (dirItems ++ [dirItem fi (UString (UTF8_to_wchar (unset dirItems) curEntString))])

def stripped (srcFolder : Str) : DirOptions :=
  ⟨srcFolder,.RELATIVE_WITHOUT_BASE,false,.RECURSIVE_FOLLOW_SYMLINKS,false,fun _ => true⟩

def based (path : Str) : DirOptions :=
  ⟨path,.RELATIVE_INCL_BASE,false,.RECURSIVE_FOLLOW_SYMLINKS,false,fun _ => true⟩

/-- `while (dirIt.next())`, also where the iterator could not be made. -/
def addAll (errno : Nat) (dirIt : DirIterator) (dirItems : List CDirItem) :
    Except Failure (List CDirItem) :=
  whileNext a (.error .outOfTurns) (fun i dirItems => addItem folder unset errno i.current dirItems) turns
    dirIt dirItems

/-- What is below a chosen entry, if that is a directory. -/
def addBelow (srcFolder entry : Str) (dirItems : List CDirItem) : Except Failure (List CDirItem) :=
  if (folder.stat entry).any fun st => st.kind = .dir then
    addAll a folder unset turns 12342 (createIterator a (based (srcFolder ++ slash :: entry))) dirItems
  else .ok dirItems

/-- The entry itself comes last, whatever it is. -/
def addEntry (srcFolder entry : Str) (dirItems : List CDirItem) : Except Failure (List CDirItem) := do
  let dirItems ← addBelow a folder unset turns srcFolder entry dirItems
  addItem folder unset 12343 entry dirItems

/-- The items `compressToArchive` makes, if it can change the working directory. -/
def dirItems (chdir : Str → Option SrcFolder) (srcFolder : Str) (currentEntries : List Str) :
    Except Failure (List CDirItem) :=
  match chdir srcFolder with
  | none => .error (.error 12340)
  | some folder =>
    if currentEntries.length = 0 then
      addAll a folder unset turns 12341 (createIterator a (stripped srcFolder)) []
    else
      currentEntries.foldlM (fun dirItems entry =>
        addEntry a folder unset turns srcFolder entry dirItems) []

end Model

section Statements

variable (a : Answers) (fs : FileSystem) (place : Str → Option Path) (folder : SrcFolder) (root : Str)

/-- What is in the directory a path leads to. -/
def entriesAt (rel : Path) : List Name :=
  match place (spelled root rel) with
  | none => []
  | some d => fs.children d

/-- It is below the folder, links followed. -/
def Descends (rel : Path) : Prop := Leads (entriesAt fs place root) [] rel

/-- What can be listed is a directory, or a link to one, to the other calls too; and a name in the
folder stands for the path behind the folder's. -/
structure Consistent : Prop where
  listed {s : Str} : (a.opendir s).isSome → ∃ st, a.lstat s = some st ∧
    (st.kind = .dir ∨ st.kind = .link ∧ ∃ st', a.stat s = some st' ∧ st'.kind = .dir)
  here {c : Name} : ProperName c → (a.opendir (root ++ slash :: c)).isSome →
    ∃ st, folder.stat c = some st ∧ st.kind = .dir

/-- All directories can be listed. -/
def Listable : Prop := ∀ rel d, Descends fs place root rel → place (spelled root rel) = some d →
  fs.isDir d → (a.opendir (spelled root rel)).isSome

/-- A directory below which there are no cycles of links, whose directories can be listed and whose
entries the archive library finds. -/
structure Compressible (p : Path) : Prop where
  fromTop : absolute root
  nulFree : NulFree root
  leads : place root = some p
  isDir : fs.isDir p
  consistent : Consistent a folder root
  listable : Listable a fs place root
  noCycles : NoCycles a place (stripped root)
  found : ∀ rel, rel ≠ [] → Descends fs place root rel → (folder.Find (joined rel)).isSome

/-- An item for each of these paths, in order. -/
def ItemsOf (l : List Path) (items : List CDirItem) : Prop :=
  List.Forall₂ (fun rel i => ∃ fi unset, folder.Find (joined rel) = some fi ∧
    i = dirItem fi (UString (UTF8_to_wchar unset (joined rel)))) l items

/-- Each path of `S` has one item; where names are texts, these have different names. -/
def OneEach (S : Path → Prop) (items : List CDirItem) : Prop :=
  ∃ l : List Path, l.Nodup ∧ (∀ rel, rel ∈ l ↔ S rel) ∧ ItemsOf folder l items ∧
    ((∀ rel, S rel → ∀ c ∈ rel, WellFormedUtf8 c) → (items.map CDirItem.Name).Nodup)

end Statements

section Names

variable {b b' : Str} {rel : Path}

theorem wide_text (hb : WellFormedUtf8 b) (hnul : NulFree b) :
    ∃ text : List Char, b = encodeUtf8 text ∧
      ∀ unset, UString (UTF8_to_wchar unset b) = text.map Char.val := by
  obtain ⟨text,rfl⟩ := hb
  have h : '\x00' ∉ text := fun hmem => hnul (zero_mem_encodeUtf8.mpr hmem)
  refine ⟨text,rfl,fun unset => ?_⟩
  rw [UTF8_to_wchar,loop_encodeUtf8 h,UString,List.takeWhile_eq_self_iff]
  rintro v hv
  obtain ⟨c,hc,rfl⟩ := List.mem_map.mp hv
  refine decide_eq_true fun hzero => h ?_
  rwa [← (eq_nul_iff c).mpr (congrArg UInt32.toNat hzero)]

theorem wide_inj (hb : WellFormedUtf8 b) (hnul : NulFree b) (hb' : WellFormedUtf8 b') (hnul' : NulFree b')
    {unset unset' : UInt32}
    (h : UString (UTF8_to_wchar unset b) = UString (UTF8_to_wchar unset' b')) : b = b' := by
  obtain ⟨text,rfl,htext⟩ := wide_text hb hnul
  obtain ⟨text',rfl,htext'⟩ := wide_text hb' hnul'
  rw [htext,htext'] at h
  rw [List.map_injective_iff.mpr (fun c c' => Char.ext) h]

theorem wellFormed_append (hb : WellFormedUtf8 b) (hb' : WellFormedUtf8 b') : WellFormedUtf8 (b ++ b') := by
  obtain ⟨text,rfl⟩ := hb
  obtain ⟨text',rfl⟩ := hb'
  exact ⟨text ++ text',by simp [encodeUtf8]⟩

theorem wellFormed_joined (h : ∀ c ∈ rel, WellFormedUtf8 c) : WellFormedUtf8 (joined rel) := by
  cases rel with
  | nil => exact ⟨[],rfl⟩
  | cons c rel =>
    have hrest : ∀ rel : Path, (∀ c ∈ rel, WellFormedUtf8 c) →
        WellFormedUtf8 (rel.flatMap (slash :: ·)) := by
      intro rel hrel
      induction rel with
      | nil => exact ⟨[],rfl⟩
      | cons c rel ih =>
        rw [List.flatMap_cons,← List.singleton_append]
        refine wellFormed_append (wellFormed_append ⟨['/'],by decide⟩ (hrel c List.mem_cons_self)) ?_
        exact ih fun d hd => hrel d (List.mem_cons_of_mem c hd)
    exact wellFormed_append (h c List.mem_cons_self) (hrest rel fun d hd => h d (List.mem_cons_of_mem c hd))

theorem nulFree_joined (h : ∀ c ∈ rel, ProperName c) : NulFree (joined rel) := by
  intro hzero
  obtain ⟨c,hc,hmem⟩ := List.mem_flatMap.mp (List.mem_of_mem_tail hzero)
  rcases List.mem_cons.mp hmem with heq | hmem
  · exact absurd heq (by decide)
  · exact (h c hc).2.2.1 hmem

end Names

section Ways

variable {a : Answers} {fs : FileSystem} {place : Str → Option Path} {folder : SrcFolder} {root : Str}
  {rel : Path} {c : Name} {n : Nat}

theorem visited_follow {o : DirOptions} (hfollow : o.recursiveListing = .RECURSIVE_FOLLOW_SYMLINKS)
    {s : Str} : visited a o s ↔ DirIterator.efdL a s = .d ∨ DirIterator.efdL a s = .L := by
  simp only [visited,hfollow,decide_eq_true_eq]

theorem efdL_of_opendir (hcons : Consistent a folder root) {s : Str} (hopen : (a.opendir s).isSome) :
    DirIterator.efdL a s = .d ∨ DirIterator.efdL a s = .L := by
  obtain ⟨st,hst,hkind⟩ := hcons.listed hopen
  rcases hkind with hdir | ⟨hlink,st',hst',hdir⟩
  · exact .inl (efdL_d.mpr ⟨st,hst,hdir⟩)
  · exact .inr (efdL_L.mpr ⟨⟨st,hst,hlink⟩,st',hst',hdir⟩)

theorem kids_follow (hcons : Consistent a folder root) {o : DirOptions}
    (hfollow : o.recursiveListing = .RECURSIVE_FOLLOW_SYMLINKS) :
    kids a o rel = ((a.opendir (spelled o.dir rel)).elim [] (pushed o)).reverse := by
  rw [kids]
  by_cases hopen : (a.opendir (spelled o.dir rel)).isSome
  · rw [if_pos (.inr ((visited_follow hfollow).mpr (efdL_of_opendir hcons hopen)))]
  · rw [Option.not_isSome_iff_eq_none] at hopen
    simp [hopen]

theorem mem_kids_stripped (hcons : Consistent a folder root) : c ∈ kids a (stripped root) rel ↔
    ∃ names, a.opendir (spelled root rel) = some names ∧ c ∈ names := by
  have hroot : (stripped root).dir = root := rfl
  rw [kids_follow hcons rfl,hroot]
  cases a.opendir (spelled root rel) <;> simp [pushed,stripped]

theorem kids_based (hcons : Consistent a folder root) :
    kids a (based (root ++ slash :: c)) rel = kids a (stripped root) (c :: rel) := by
  have hpath : spelled (based (root ++ slash :: c)).dir rel = spelled (stripped root).dir (c :: rel) := by
    simp [spelled,based,stripped]
  rw [kids_follow hcons rfl,kids_follow hcons rfl,hpath]
  rfl

theorem leads_stripped (h : a.Shows fs place) (hcons : Consistent a folder root)
    (hlist : Listable a fs place root) :
    Leads (kids a (stripped root)) [] rel ↔ Descends fs place root rel := by
  rw [Descends]
  induction rel using List.reverseRecOn with
  | nil => simp [Leads]
  | append_singleton rel c ih =>
    rw [leads_concat,leads_concat,ih,List.nil_append,mem_kids_stripped hcons]
    refine and_congr_right fun hrel => ?_
    rw [entriesAt]
    constructor
    · rintro ⟨names,hopen,hc⟩
      obtain ⟨d,hd,_,hperm⟩ := h.opendir hopen
      rw [hd]
      exact hperm.subset hc
    · intro hc
      cases hd : place (spelled root rel) with
      | none => simp [hd] at hc
      | some d =>
        rw [hd] at hc
        have hopen := hlist rel d hrel hd
          (FileSystem.isDir_of_above (FileSystem.mem_children.mp hc) (List.prefix_append d [c]) (by simp))
        obtain ⟨names,hnames⟩ := Option.isSome_iff_exists.mp hopen
        obtain ⟨d',hd',_,hperm⟩ := h.opendir hnames
        obtain rfl := Option.some.inj (hd.symm.trans hd')
        exact ⟨names,hnames,hperm.symm.subset hc⟩

theorem proper_of_descends (hrel : Descends fs place root rel) : ∀ c ∈ rel, ProperName c := by
  induction rel using List.reverseRecOn with
  | nil => simp
  | append_singleton rel c ih =>
    obtain ⟨hrel,hc⟩ := leads_concat.mp hrel
    rw [List.nil_append,entriesAt] at hc
    intro b hb
    rcases List.mem_append.mp hb with hb | hb
    · exact ih hrel b hb
    · obtain rfl := List.mem_singleton.mp hb
      cases hd : place (spelled root rel) with
      | none => simp [hd] at hc
      | some d =>
        rw [hd] at hc
        exact FileSystem.proper_of_has (FileSystem.mem_children.mp hc)

end Ways

section Loops

variable {a : Answers} {fs : FileSystem} {place : Str → Option Path} {folder : SrcFolder} {root : Str}
  {unset : List CDirItem → UInt32} {n turns : Nat} {errno : Nat} {c : Name}

theorem addItem_found {path : Str} {l : List CDirItem} {rel : Path} (hpath : path = joined rel)
    (hfind : (folder.Find (joined rel)).isSome) : ∃ i, addItem folder unset errno path l = .ok (l ++ [i]) ∧
      ItemsOf folder [rel] [i] := by
  obtain ⟨fi,hfi⟩ := Option.isSome_iff_exists.mp hfind
  subst hpath
  refine ⟨dirItem fi (UString (UTF8_to_wchar (unset l) (joined rel))),?_,?_⟩
  · rw [addItem,hfi]
  · exact .cons ⟨fi,unset l,hfi,rfl⟩ .nil

theorem ItemsOf.append {l l' : List Path} {items items' : List CDirItem} (h : ItemsOf folder l items)
    (h' : ItemsOf folder l' items') : ItemsOf folder (l ++ l') (items ++ items') :=
  List.rel_append h h'

theorem addAll_eq {o : DirOptions} {f : Path → Path} (habs : absolute o.dir)
    (hdepth : Shallow (kids a o) n []) (hturns : (below (kids a o) n []).length < turns)
    (hpath : ∀ rel, rel ≠ [] → pathShown o rel = joined (f rel))
    (hfind : ∀ rel ∈ below (kids a o) n [], (folder.Find (joined (f rel))).isSome)
    (items : List CDirItem) :
    ∃ new, addAll a folder unset turns errno (createIterator a o) items = .ok (items ++ new) ∧
      ItemsOf folder ((below (kids a o) n []).map f) new := by
  have hloop : ∀ l : List Path, (∀ rel ∈ l, rel ≠ [] ∧ (folder.Find (joined (f rel))).isSome) →
      ∀ items : List CDirItem, ∃ new, (l.map (itemOf a o)).foldlM (fun dirItems i =>
        addItem folder unset errno i.current dirItems) items = .ok (items ++ new) ∧
          ItemsOf folder (l.map f) new := by
    intro l hl
    induction l with
    | nil => exact fun items => ⟨[],by simp [pure,Except.pure],.nil⟩
    | cons rel l ih =>
      intro items
      obtain ⟨hne,hfound⟩ := hl rel List.mem_cons_self
      obtain ⟨i,hi,hitem⟩ := @addItem_found folder unset errno (itemOf a o rel).current items (f rel)
        (hpath rel hne) hfound
      obtain ⟨new,hnew,hitems⟩ := ih (fun rel' hrel' => hl rel' (List.mem_cons_of_mem rel hrel'))
        (items ++ [i])
      refine ⟨i :: new,?_,hitem.append hitems⟩
      rw [List.map_cons,List.foldlM_cons,hi]
      simpa [bind,Except.bind] using hnew
  by_cases hopen : (a.opendir o.dir).isSome
  · obtain ⟨names,hnames⟩ := Option.isSome_iff_exists.mp hopen
    have hiter := iterates_below habs hnames hdepth
    rw [addAll,hiter.loop (by simpa using hturns)]
    refine hloop _ (fun rel hrel => ⟨?_,hfind rel hrel⟩) items
    obtain ⟨r,hne,_,_,rfl⟩ := mem_below.mp hrel
    simpa using hne
  · -- an iterator that could not be made
    have hkids : kids a o [] = [] := by
      rw [Option.not_isSome_iff_eq_none] at hopen
      simp [kids,spelled_nil,hopen]
    have hstack := createIterator_unopened fun h => hopen h.2
    refine ⟨[],?_,by rw [below_leaf hkids]; exact .nil⟩
    rw [below_leaf hkids] at hturns
    cases turns with
    | zero => simp at hturns
    | succ turns =>
      rw [addAll,whileNext,DirIterator.next,hstack,List.append_nil]
      rfl

end Loops

section Selection

variable {a : Answers} {fs : FileSystem} {place : Str → Option Path} {folder : SrcFolder} {root : Str}
  {unset : List CDirItem → UInt32} {n turns : Nat} {c : Name}

theorem pathShown_stripped {rel : Path} : pathShown (stripped root) rel = joined rel :=
  drop_spelled root rel

theorem pathShown_based (hc : ProperName c) {rel : Path} :
    pathShown (based (root ++ slash :: c)) rel = joined (c :: rel) := by
  have hlen : rootLenOf (based (root ++ slash :: c)) = root.length + 1 := by
    simp [rootLenOf,based,DirIterator.getParentDir,lastSlash_append hc.2.1]
  have hpath : spelled (based (root ++ slash :: c)).dir rel = spelled root (c :: rel) := by
    simp [spelled,based]
  rw [pathShown_eq_drop,hlen,hpath]
  exact drop_spelled root (c :: rel)

/-- What a chosen entry adds: what is below it, then the entry itself. -/
def chosen (a : Answers) (root : Str) (n : Nat) (c : Name) : List Path :=
  below (kids a (stripped root)) n [c] ++ [[c]]

theorem shallow_based (hcons : Consistent a folder root) (hdepth : Shallow (kids a (stripped root)) n [c]) :
    Shallow (kids a (based (root ++ slash :: c))) n [] :=
  fun rel hrel => hdepth rel ((leads_cons fun _ => kids_based hcons).mp hrel)

theorem addEntry_eq (hcons : Consistent a folder root) (habs : absolute root) (hc : ProperName c)
    (hdepth : Shallow (kids a (stripped root)) n [c]) (hturns : (chosen a root n c).length ≤ turns)
    (hfind : ∀ rel ∈ chosen a root n c, (folder.Find (joined rel)).isSome) (items : List CDirItem) :
    ∃ new, addEntry a folder unset turns root c items = .ok (items ++ new) ∧
      ItemsOf folder (chosen a root n c) new := by
  have hbelow : (below (kids a (based (root ++ slash :: c))) n []).map (c :: ·) =
      below (kids a (stripped root)) n [c] := below_cons fun q => kids_based hcons
  have hfirst : ∃ new, addBelow a folder unset turns root c items = .ok (items ++ new) ∧
      ItemsOf folder (below (kids a (stripped root)) n [c]) new := by
    rw [addBelow,← hbelow]
    split_ifs with hdir
    · refine addAll_eq ?_ (shallow_based hcons hdepth) ?_ (fun rel _ => pathShown_based hc)
        (fun rel hrel => hfind _ ?_) items
      · rw [absolute] at habs
        rw [absolute,based,List.head?_append,habs,Option.some_or]
      · rw [chosen,← hbelow,List.length_append,List.length_map,List.length_singleton] at hturns
        omega
      · rw [chosen,← hbelow]
        exact List.mem_append_left _ (List.mem_map_of_mem hrel)
    · -- then it cannot be listed
      have hkids : kids a (based (root ++ slash :: c)) [] = [] := by
        rw [kids_follow hcons rfl,spelled_nil]
        cases hopen : a.opendir (based (root ++ slash :: c)).dir with
        | none => rfl
        | some names =>
          obtain ⟨st,hst,hkind⟩ := hcons.here hc (Option.isSome_of_eq_some hopen)
          exact absurd (by simp [hst,hkind]) hdir
      rw [below_leaf hkids]
      exact ⟨[],by simp,.nil⟩
  obtain ⟨new,hnew,hitems⟩ := hfirst
  obtain ⟨i,hi,hitem⟩ := @addItem_found folder unset 12343 c (items ++ new) [c]
    (by simp [joined]) (hfind [c] (by simp [chosen]))
  refine ⟨new ++ [i],?_,hitems.append hitem⟩
  rw [addEntry,hnew,← List.append_assoc]
  exact hi

theorem addEntries_eq (hcons : Consistent a folder root) (habs : absolute root) {sel : List Name}
    (hsel : ∀ c ∈ sel, ProperName c ∧ Shallow (kids a (stripped root)) n [c] ∧
      (chosen a root n c).length ≤ turns ∧ ∀ rel ∈ chosen a root n c, (folder.Find (joined rel)).isSome)
    (items : List CDirItem) :
    ∃ new, sel.foldlM (fun dirItems entry => addEntry a folder unset turns root entry dirItems) items =
      .ok (items ++ new) ∧ ItemsOf folder (sel.flatMap (chosen a root n)) new := by
  induction sel generalizing items with
  | nil => exact ⟨[],by simp [pure,Except.pure],.nil⟩
  | cons c sel ih =>
    obtain ⟨hc,hdepth,hturns,hfind⟩ := hsel c List.mem_cons_self
    obtain ⟨first,hfirst,hitems⟩ := @addEntry_eq a folder root unset n turns c hcons habs hc hdepth hturns
      hfind items
    obtain ⟨rest,hrest,hitems'⟩ := ih (fun d hd => hsel d (List.mem_cons_of_mem c hd)) (items ++ first)
    refine ⟨first ++ rest,?_,?_⟩
    · rw [List.foldlM_cons,hfirst,← List.append_assoc]
      exact hrest
    · rw [List.flatMap_cons]
      exact hitems.append hitems'

end Selection

/-! ### What is added -/

section Added

variable {a : Answers} {fs : FileSystem} {place : Str → Option Path} {folder : SrcFolder} {root : Str}
  {unset : List CDirItem → UInt32} {n turns : Nat} {c : Name} {l : List Path} {items : List CDirItem}
  {S : Path → Prop} {rel : Path}

/-- The names of texts are those of their paths, whatever the variable held. -/
theorem names_eq (h : ItemsOf folder l items)
    (hl : ∀ rel ∈ l, ∀ c ∈ rel, ProperName c ∧ WellFormedUtf8 c) :
    items.map CDirItem.Name = l.map fun rel => UString (UTF8_to_wchar 0 (joined rel)) := by
  induction h with
  | nil => rfl
  | @cons rel i l items hi _ ih =>
    obtain ⟨fi,u,_,rfl⟩ := hi
    have hrel := hl rel List.mem_cons_self
    obtain ⟨text,_,htext⟩ := wide_text (wellFormed_joined fun c hc => (hrel c hc).2)
      (nulFree_joined fun c hc => (hrel c hc).1)
    have hname : (dirItem fi (UString (UTF8_to_wchar u (joined rel)))).Name =
        UString (UTF8_to_wchar 0 (joined rel)) := (htext u).trans (htext 0).symm
    rw [List.map_cons,List.map_cons,hname,ih fun rel' hrel' => hl rel' (List.mem_cons_of_mem rel hrel')]

theorem oneEach (hnodup : l.Nodup) (hmem : ∀ rel, rel ∈ l ↔ S rel)
    (hS : ∀ rel, S rel → rel ≠ [] ∧ ∀ c ∈ rel, ProperName c) (hitems : ItemsOf folder l items) :
    OneEach folder S items := by
  refine ⟨l,hnodup,hmem,hitems,fun htexts => ?_⟩
  rw [names_eq hitems fun rel hrel c hc =>
    ⟨(hS rel ((hmem rel).mp hrel)).2 c hc,htexts rel ((hmem rel).mp hrel) c hc⟩]
  refine hnodup.map_on fun rel hrel rel' hrel' heq => ?_
  have hrel := (hmem rel).mp hrel
  have hrel' := (hmem rel').mp hrel'
  obtain ⟨hne,hproper⟩ := hS rel hrel
  obtain ⟨hne',hproper'⟩ := hS rel' hrel'
  exact joined_inj hne hne' hproper hproper' (wide_inj (wellFormed_joined (htexts rel hrel))
    (nulFree_joined hproper) (wellFormed_joined (htexts rel' hrel')) (nulFree_joined hproper') heq)

theorem OneEach.names_perm {items' : List CDirItem} (h : OneEach folder S items)
    (h' : OneEach folder S items') (hS : ∀ rel, S rel → ∀ c ∈ rel, ProperName c ∧ WellFormedUtf8 c) :
    (items.map CDirItem.Name).Perm (items'.map CDirItem.Name) := by
  obtain ⟨l,hnodup,hmem,hitems,_⟩ := h
  obtain ⟨l',hnodup',hmem',hitems',_⟩ := h'
  rw [names_eq hitems fun rel hrel => hS rel ((hmem rel).mp hrel),
    names_eq hitems' fun rel hrel => hS rel ((hmem' rel).mp hrel)]
  exact ((List.perm_ext_iff_of_nodup hnodup hnodup').mpr fun rel => (hmem rel).trans (hmem' rel).symm).map _

theorem mem_chosen (hdepth : Shallow (kids a (stripped root)) n [c]) :
    rel ∈ chosen a root n c ↔ ∃ rest, rel = c :: rest ∧ Leads (kids a (stripped root)) [c] rest := by
  rw [chosen,List.mem_append,mem_below,List.mem_singleton]
  constructor
  · rintro (⟨rest,_,_,hrest,rfl⟩ | rfl)
    · exact ⟨rest,rfl,hrest⟩
    · exact ⟨[],rfl,trivial⟩
  · rintro ⟨rest,rfl,hrest⟩
    cases rest with
    | nil => exact .inr rfl
    | cons d rest => exact .inl ⟨d :: rest,by simp,hdepth _ hrest,hrest,rfl⟩

theorem nodup_chosen (h : a.Shows fs place) : (chosen a root n c).Nodup := by
  have hbelow := @pairwise_below _ (kids a (stripped root)) n [c] fun rel _ => nodup_kids h
  refine List.Nodup.append (hbelow.imp ?_) (List.nodup_singleton _) fun q hq hc => ?_
  · rintro r r' hne rfl
    exact hne List.prefix_rfl
  · obtain ⟨rest,hne,_,_,rfl⟩ := mem_below.mp hq
    simp [hne] at hc

theorem nodup_selection (h : a.Shows fs place) {sel : List Name} (hsel : sel.Nodup)
    (hdepth : ∀ c ∈ sel, Shallow (kids a (stripped root)) n [c]) :
    (sel.flatMap (chosen a root n)).Nodup := by
  refine List.nodup_flatMap.mpr ⟨fun c _ => nodup_chosen h,hsel.imp_of_mem fun {c d} hc hd hne => ?_⟩
  intro rel hrel hrel'
  obtain ⟨rest,rfl,_⟩ := (mem_chosen (hdepth c hc)).mp hrel
  obtain ⟨rest',heq,_⟩ := (mem_chosen (hdepth d hd)).mp hrel'
  exact hne (List.cons.inj heq).1

end Added

section Folder

variable {a : Answers} {fs : FileSystem} {place : Str → Option Path} {folder : SrcFolder} {root : Str}
  {p : Path} {chdir : Str → Option SrcFolder} {turns : Nat} {unset : List CDirItem → UInt32}

theorem Compressible.leads_iff (h : a.Shows fs place) (hroot : Compressible a fs place folder root p)
    (rel : Path) : Leads (kids a (stripped root)) [] rel ↔ Descends fs place root rel :=
  leads_stripped h hroot.consistent hroot.listable

theorem Compressible.mem_kids (h : a.Shows fs place) (hroot : Compressible a fs place folder root p)
    (c : Name) : c ∈ kids a (stripped root) [] ↔ c ∈ fs.children p := by
  have hone := hroot.leads_iff h [c]
  simpa [Descends,Leads,entriesAt,spelled_nil,hroot.leads] using hone

theorem Compressible.shallow (h : a.Shows fs place) (hroot : Compressible a fs place folder root p) :
    Shallow (kids a (stripped root)) fs.paths.length [] :=
  shallow_of_noCycles h hroot.nulFree rfl hroot.noCycles

theorem dirItems_none (h : a.Shows fs place) (hchdir : chdir root = some folder)
    (hroot : Compressible a fs place folder root p)
    (hturns : (below (kids a (stripped root)) fs.paths.length []).length < turns) :
    ∃ all, dirItems a unset turns chdir root [] = .ok all ∧
      OneEach folder (fun rel => rel ≠ [] ∧ Descends fs place root rel) all := by
  have hdepth := hroot.shallow h
  have hmem : ∀ rel, rel ∈ below (kids a (stripped root)) fs.paths.length [] ↔
      rel ≠ [] ∧ Descends fs place root rel := by
    intro rel
    rw [mem_below,← hroot.leads_iff h]
    constructor
    · rintro ⟨_,hne,_,hr,rfl⟩
      exact ⟨hne,hr⟩
    · rintro ⟨hne,hr⟩
      exact ⟨rel,hne,hdepth rel hr,hr,rfl⟩
  obtain ⟨all,hall,hof⟩ := @addAll_eq a folder unset fs.paths.length turns 12341 (stripped root) id
    hroot.fromTop hdepth hturns (fun rel _ => pathShown_stripped)
    (fun rel hrel => hroot.found rel ((hmem rel).mp hrel).1 ((hmem rel).mp hrel).2) []
  rw [List.map_id] at hof
  refine ⟨all,?_,oneEach ?_ hmem (fun rel hrel => ⟨hrel.1,proper_of_descends hrel.2⟩) hof⟩
  · rw [dirItems,hchdir]
    exact hall
  · refine (pairwise_below fun rel _ => nodup_kids h).imp ?_
    rintro r r' hne rfl
    exact hne List.prefix_rfl

theorem dirItems_some (h : a.Shows fs place) (hchdir : chdir root = some folder)
    (hroot : Compressible a fs place folder root p)
    (hturns : (below (kids a (stripped root)) fs.paths.length []).length < turns) {sel : List Name}
    (hne : sel ≠ []) (hnodup : sel.Nodup) (hsel : ∀ c ∈ sel, c ∈ fs.children p) :
    ∃ items, dirItems a unset turns chdir root sel = .ok items ∧
      OneEach folder (fun rel => ∃ c rest, rel = c :: rest ∧ c ∈ sel ∧ Descends fs place root rel)
        items := by
  have hdepth := hroot.shallow h
  have hkid : ∀ c ∈ sel, c ∈ kids a (stripped root) [] := fun c hc => (hroot.mem_kids h c).mpr (hsel c hc)
  have hdepth' : ∀ c ∈ sel, Shallow (kids a (stripped root)) fs.paths.length [c] := fun c hc =>
    (hdepth.mono (Nat.le_succ _)).child (hkid c hc)
  have hmem : ∀ c ∈ sel, ∀ rel, rel ∈ chosen a root fs.paths.length c ↔
      ∃ rest, rel = c :: rest ∧ Descends fs place root rel := by
    intro c hc rel
    rw [mem_chosen (hdepth' c hc)]
    refine exists_congr fun rest => and_congr_right fun heq => ?_
    rw [heq,← hroot.leads_iff h]
    exact (and_iff_right (hkid c hc)).symm
  have hlen : ∀ c ∈ sel, (chosen a root fs.paths.length c).length ≤ turns := by
    intro c hc
    have hle := @length_below_le _ (kids a (stripped root)) fs.paths.length [] c (hkid c hc)
    rw [below_eq hdepth (Nat.le_succ _),List.nil_append] at hle
    rw [chosen,List.length_append,List.length_singleton]
    omega
  obtain ⟨items,hitems,hof⟩ := @addEntries_eq a folder root unset fs.paths.length turns hroot.consistent
    hroot.fromTop sel (fun c hc => by
      refine ⟨FileSystem.proper_of_has (FileSystem.mem_children.mp (hsel c hc)),hdepth' c hc,hlen c hc,?_⟩
      intro rel hrel
      obtain ⟨rest,rfl,hdesc⟩ := (hmem c hc rel).mp hrel
      exact hroot.found _ (by simp) hdesc) []
  refine ⟨items,?_,oneEach (nodup_selection h hnodup hdepth') (fun rel => ?_) ?_ hof⟩
  · rw [dirItems,hchdir]
    simp only [List.length_eq_zero_iff,hne,if_false]
    exact hitems
  · simp only [List.mem_flatMap]
    constructor
    · rintro ⟨c,hc,hrel⟩
      obtain ⟨rest,heq,hdesc⟩ := (hmem c hc rel).mp hrel
      exact ⟨c,rest,heq,hc,hdesc⟩
    · rintro ⟨c,rest,heq,hc,hdesc⟩
      exact ⟨c,hc,(hmem c hc rel).mpr ⟨rest,heq,hdesc⟩⟩
  · rintro rel ⟨c,rest,rfl,_,hdesc⟩
    exact ⟨by simp,proper_of_descends hdesc⟩

theorem dirItems_all (h : a.Shows fs place) (hchdir : chdir root = some folder)
    (hroot : Compressible a fs place folder root p)
    (hturns : (below (kids a (stripped root)) fs.paths.length []).length < turns) {sel : List Name}
    (hsel : sel.Perm (fs.children p)) :
    ∃ items, dirItems a unset turns chdir root sel = .ok items ∧
      OneEach folder (fun rel => rel ≠ [] ∧ Descends fs place root rel) items := by
  by_cases hne : sel = []
  · rw [hne]
    exact dirItems_none h hchdir hroot hturns
  · obtain ⟨items,hrun,heach⟩ := @dirItems_some a fs place folder root p chdir turns unset h hchdir hroot
      hturns sel hne (hsel.nodup_iff.mpr (fs.nodup_children p)) fun c hc => hsel.subset hc
    have hsame : (fun rel => ∃ c rest, rel = c :: rest ∧ c ∈ sel ∧ Descends fs place root rel) =
        fun rel => rel ≠ [] ∧ Descends fs place root rel := by
      funext rel
      refine propext ⟨?_,?_⟩
      · rintro ⟨c,rest,rfl,_,hdesc⟩
        exact ⟨by simp,hdesc⟩
      · rintro ⟨hcons,hdesc⟩
        obtain ⟨c,rest,rfl⟩ := List.exists_cons_of_ne_nil hcons
        have hc := ((hroot.leads_iff h _).mpr hdesc).1
        exact ⟨c,rest,rfl,hsel.symm.subset ((hroot.mem_kids h c).mp hc),hdesc⟩
    rw [hsame] at heach
    exact ⟨items,hrun,heach⟩

/-- Without a choice, or with all children chosen, there is one item for each path below the folder; with
some of them chosen, for these and what is below them. -/
theorem dirItems_right (h : a.Shows fs place) (hchdir : chdir root = some folder)
    (hroot : Compressible a fs place folder root p) :
    ∃ least, ∀ turns, least ≤ turns → ∀ unset,
      (∃ all, dirItems a unset turns chdir root [] = .ok all ∧
        OneEach folder (fun rel => rel ≠ [] ∧ Descends fs place root rel) all ∧
        ∀ unset' sel, sel.Perm (fs.children p) → ∃ items, dirItems a unset' turns chdir root sel = .ok items ∧
          OneEach folder (fun rel => rel ≠ [] ∧ Descends fs place root rel) items ∧
          ((∀ rel, Descends fs place root rel → ∀ c ∈ rel, WellFormedUtf8 c) →
            (items.map CDirItem.Name).Perm (all.map CDirItem.Name))) ∧
      ∀ sel, sel ≠ [] → sel.Nodup → (∀ c ∈ sel, c ∈ fs.children p) →
        ∃ items, dirItems a unset turns chdir root sel = .ok items ∧
          OneEach folder (fun rel => ∃ c rest, rel = c :: rest ∧ c ∈ sel ∧ Descends fs place root rel)
            items := by
  refine ⟨(below (kids a (stripped root)) fs.paths.length []).length + 1,fun turns hturns unset => ⟨?_,?_⟩⟩
  · obtain ⟨all,hall,heach⟩ := @dirItems_none a fs place folder root p chdir turns unset h hchdir hroot hturns
    refine ⟨all,hall,heach,fun unset' sel hsel => ?_⟩
    obtain ⟨items,hrun,heach'⟩ := @dirItems_all a fs place folder root p chdir turns unset' h hchdir hroot
      hturns sel hsel
    exact ⟨items,hrun,heach',fun htexts => heach'.names_perm heach fun rel hrel c hc =>
      ⟨proper_of_descends hrel.2 c hc,htexts rel hrel.2 c hc⟩⟩
  · exact fun sel hne hnodup hsel => dirItems_some h hchdir hroot hturns hne hnodup hsel

end Folder

section Kernels

/-- What `lstat` or `stat` tells, as the archive library keeps it. -/
def fillin_CFileInfo (st : Stat) : CFileInfo :=
  let format : Nat := match st.kind with
    | .file => 0o100000
    | .dir => 0o040000
    | .link => 0o120000
  let unix : UInt32 := UInt32.ofNat (format + st.mode) <<< 16
  { Attrib := (if st.kind = .dir then 16 else 32) ||| (if st.mode.testBit 7 then 0 else 1) |||
      (0x8000 + unix)
    Size := if st.kind = .dir then 0 else st.size
    CTime := .ofInt ((st.ctime + 11644473600) * 10000000)
    ATime := .ofInt ((st.atime + 11644473600) * 10000000)
    MTime := .ofInt ((st.mtime + 11644473600) * 10000000) }

/-- The working directory of a kernel where all directories can be listed. -/
def chdirOf (k : Kernel) (fs : FileSystem) (s : Str) : Option SrcFolder :=
  match k.follow fs s with
  | .error _ => none
  | .ok p =>
    let here := ({ k with cwd := p } : Kernel).answers fs fun _ => true
    some ⟨here.stat,fun path => (here.stat path).map fillin_CFileInfo⟩

variable {k : Kernel} {fs : FileSystem} {root : Str} {p : Path} {folder : SrcFolder}

theorem chdirOf_consistent (hnul : NulFree root) (hfolder : chdirOf k fs root = some folder) :
    Consistent (k.answers fs fun _ => true) folder root := by
  unfold chdirOf at hfolder
  cases hp : k.follow fs root with
  | error e => simp [hp] at hfolder
  | ok p =>
    rw [hp] at hfolder
    obtain rfl := Option.some.inj hfolder
    exact ⟨Kernel.answers_listed,fun hc hopen => Kernel.answers_here hnul hc hp hopen⟩

theorem answers_listable (root : Str) : Listable (k.answers fs fun _ => true) fs
    (fun s => (k.follow fs s).toOption) root := by
  intro rel d _ hd hdir
  have hfollow := ok_of_toOption hd
  simp [Kernel.answers,hfollow,hdir]

end Kernels

/-- In "/s" a directory with a file, and a link to "/o", which holds another. -/
def linkedTree : FileSystem :=
  .ofEntries [([],.dir 0o755),([text ['s']],.dir 0o755),([text ['s'],text ['d']],.dir 0o755),
    ([text ['s'],text ['d'],text ['x']],.file [7] 0o644),([text ['s'],text ['l']],.link (text ['/','o'])),
    ([text ['o']],.dir 0o755),([text ['o'],text ['y']],.file [8] 0o644)] (by decide)

def linkedAnswers : Answers := System.calm.toKernel.answers linkedTree fun _ => true

def linkedPlace (s : Str) : Option Path := (System.calm.toKernel.follow linkedTree s).toOption

def linkedFolder : SrcFolder :=
  ⟨(({ System.calm.toKernel with cwd := [text ['s']] } : Kernel).answers linkedTree fun _ => true).stat,
    fun path => ((({ System.calm.toKernel with cwd := [text ['s']] } : Kernel).answers linkedTree
      fun _ => true).stat path).map fillin_CFileInfo⟩

theorem linked_chdir : chdirOf System.calm.toKernel linkedTree (text ['/','s']) = some linkedFolder := by
  have hp : System.calm.toKernel.follow linkedTree (text ['/','s']) = .ok [text ['s']] := by decide +kernel
  rw [chdirOf,hp]
  rfl

def linkedPaths : List Path :=
  [[text ['d']],[text ['d'],text ['x']],[text ['l']],[text ['l'],text ['y']]]

theorem linked_ways {rel : Path} (h : Leads (kids linkedAnswers (stripped (text ['/','s']))) [] rel)
    (hne : rel ≠ []) : rel ∈ linkedPaths := by
  have hfirst : ∀ c ∈ kids linkedAnswers (stripped (text ['/','s'])) [], [c] ∈ linkedPaths ∧
      ∀ d ∈ kids linkedAnswers (stripped (text ['/','s'])) [c], [c,d] ∈ linkedPaths ∧
        kids linkedAnswers (stripped (text ['/','s'])) [c,d] = [] := by decide +kernel
  match rel, h with
  | [c], hc => exact (hfirst c hc.1).1
  | [c,d], hc => exact ((hfirst c hc.1).2 d hc.2.1).1
  | c :: d :: e :: rel, hc =>
    have hnone := ((hfirst c hc.1).2 d hc.2.1).2
    have he : e ∈ kids linkedAnswers (stripped (text ['/','s'])) [c,d] := hc.2.2.1
    rw [hnone] at he
    cases he

theorem linked_noCycles : NoCycles linkedAnswers linkedPlace (stripped (text ['/','s'])) := by
  intro rel hrel hne hlink ⟨x,p,d,⟨⟨z₁,hroot⟩,z,hy⟩,hp,hd,hpre⟩
  have honly : ∀ rel ∈ linkedPaths,
      DirIterator.efdL linkedAnswers (spelled (text ['/','s']) rel) = .L → rel = [text ['l']] := by
    decide +kernel
  obtain rfl := honly rel (linked_ways hrel hne) hlink
  -- the only directory gone through is the folder itself
  have hrest : z₁ ++ slash :: z = text ['/','l'] := by
    refine @List.append_cancel_left _ (text ['/','s']) _ _ ?_
    rw [← List.append_assoc]
    exact (congrArg (· ++ slash :: z) hroot).trans hy.symm
  have hz₁ : z₁ = [] := by
    match z₁, hrest with
    | [], _ => rfl
    | [b], hrest =>
      exact absurd (List.cons.inj (List.cons.inj hrest).2).1 (by decide)
    | b :: c :: z₁, hrest =>
      have hlen := congrArg List.length hrest
      simp [text] at hlen
  rw [hz₁,List.append_nil] at hroot
  have hthere : linkedPlace (text ['/','s','/','l']) = some [text ['o']] := by decide +kernel
  have hfolder : linkedPlace (text ['/','s']) = some [text ['s']] := by decide +kernel
  obtain rfl := Option.some.inj (hp.symm.trans hthere)
  rw [← hroot] at hd
  obtain rfl := Option.some.inj (hd.symm.trans hfolder)
  revert hpre
  decide +kernel

theorem linked_compressible : Compressible linkedAnswers linkedTree linkedPlace linkedFolder
    (text ['/','s']) [text ['s']] := by
  have hcons : Consistent linkedAnswers linkedFolder (text ['/','s']) :=
    chdirOf_consistent (by decide) linked_chdir
  have hlist : Listable linkedAnswers linkedTree linkedPlace (text ['/','s']) := answers_listable _
  have hfound : ∀ rel ∈ linkedPaths, (linkedFolder.Find (joined rel)).isSome := by decide +kernel
  have hshows : linkedAnswers.Shows linkedTree linkedPlace :=
    System.calm.toKernel.answers_shows linkedTree _
  exact ⟨by decide,by decide,by decide +kernel,by decide +kernel,hcons,hlist,linked_noCycles,
    fun rel hne hrel => hfound rel (linked_ways ((leads_stripped hshows hcons hlist).mpr hrel) hne)⟩

theorem dirItems_right_linked : ∃ least, ∀ turns, least ≤ turns → ∀ unset,
    (∃ all, dirItems linkedAnswers unset turns (chdirOf System.calm.toKernel linkedTree) (text ['/','s']) [] =
        .ok all ∧
      OneEach linkedFolder (fun rel => rel ≠ [] ∧ Descends linkedTree linkedPlace (text ['/','s']) rel) all ∧
      ∀ unset' sel, sel.Perm (linkedTree.children [text ['s']]) → ∃ items,
        dirItems linkedAnswers unset' turns (chdirOf System.calm.toKernel linkedTree) (text ['/','s']) sel =
          .ok items ∧
        OneEach linkedFolder (fun rel => rel ≠ [] ∧ Descends linkedTree linkedPlace (text ['/','s']) rel) items ∧
        ((∀ rel, Descends linkedTree linkedPlace (text ['/','s']) rel → ∀ c ∈ rel, WellFormedUtf8 c) →
          (items.map CDirItem.Name).Perm (all.map CDirItem.Name))) ∧
    ∀ sel, sel ≠ [] → sel.Nodup → (∀ c ∈ sel, c ∈ linkedTree.children [text ['s']]) → ∃ items,
      dirItems linkedAnswers unset turns (chdirOf System.calm.toKernel linkedTree) (text ['/','s']) sel =
        .ok items ∧
      OneEach linkedFolder (fun rel => ∃ c rest, rel = c :: rest ∧ c ∈ sel ∧
        Descends linkedTree linkedPlace (text ['/','s']) rel) items :=
  dirItems_right (System.calm.toKernel.answers_shows linkedTree _) linked_chdir linked_compressible

/-- "A", and the same with a byte too many, which is no text. -/
def twinTree : FileSystem :=
  .ofEntries [([],.dir 0o755),([text ['s']],.dir 0o755),([text ['s'],text ['A']],.file [7] 0o644),
    ([text ['s'],[0xc1,0x81]],.file [7] 0o644)] (by decide)

def twinAnswers : Answers := System.calm.toKernel.answers twinTree fun _ => true

def twinPlace (s : Str) : Option Path := (System.calm.toKernel.follow twinTree s).toOption

def twinFolder : SrcFolder :=
  ⟨(({ System.calm.toKernel with cwd := [text ['s']] } : Kernel).answers twinTree fun _ => true).stat,
    fun path => ((({ System.calm.toKernel with cwd := [text ['s']] } : Kernel).answers twinTree
      fun _ => true).stat path).map fillin_CFileInfo⟩

theorem twin_chdir : chdirOf System.calm.toKernel twinTree (text ['/','s']) = some twinFolder := by
  have hp : System.calm.toKernel.follow twinTree (text ['/','s']) = .ok [text ['s']] := by decide +kernel
  rw [chdirOf,hp]
  rfl

theorem twin_compressible : Compressible twinAnswers twinTree twinPlace twinFolder (text ['/','s'])
    [text ['s']] := by
  have hcons : Consistent twinAnswers twinFolder (text ['/','s']) :=
    chdirOf_consistent (by decide) twin_chdir
  have hlist : Listable twinAnswers twinTree twinPlace (text ['/','s']) := answers_listable _
  have hroot : kids twinAnswers (stripped (text ['/','s'])) [] = [[0xc1,0x81],text ['A']] := by
    decide +kernel
  have hleaf : ∀ c ∈ [[0xc1,0x81],text ['A']], kids twinAnswers (stripped (text ['/','s'])) [c] = [] ∧
      DirIterator.efdL twinAnswers (spelled (text ['/','s']) [c]) = .file ∧
      (twinFolder.Find (joined [c])).isSome := by
    decide +kernel
  have hways : ∀ rel, Leads (kids twinAnswers (stripped (text ['/','s']))) [] rel →
      rel = [] ∨ ∃ c ∈ [[0xc1,0x81],text ['A']], rel = [c] := by
    rintro (_ | ⟨c,_ | ⟨d,rel⟩⟩) hrel
    · exact .inl rfl
    · exact .inr ⟨c,hroot ▸ hrel.1,rfl⟩
    · have hd := hrel.2.1
      rw [List.nil_append,(hleaf c (hroot ▸ hrel.1)).1] at hd
      cases hd
  refine ⟨by decide,by decide,by decide +kernel,by decide +kernel,hcons,hlist,?_,?_⟩
  · intro rel hrel hne hlink
    obtain ⟨c,hc,rfl⟩ := (hways rel hrel).resolve_left hne
    have hfile : DirIterator.efdL twinAnswers (spelled (stripped (text ['/','s'])).dir [c]) = .file :=
      (hleaf c hc).2.1
    rw [hfile] at hlink
    cases hlink
  · intro rel hne hrel
    have hshows : twinAnswers.Shows twinTree twinPlace := System.calm.toKernel.answers_shows twinTree _
    obtain ⟨c,hc,rfl⟩ := (hways rel ((leads_stripped hshows hcons hlist).mpr hrel)).resolve_left hne
    exact (hleaf c hc).2.2

/-- Both entries get the name "A". -/
theorem dirItems_twin :
    Compressible twinAnswers twinTree twinPlace twinFolder (text ['/','s']) [text ['s']] ∧
    chdirOf System.calm.toKernel twinTree (text ['/','s']) = some twinFolder ∧
    ((dirItems twinAnswers (fun _ => 0) 3 (chdirOf System.calm.toKernel twinTree) (text ['/','s'])
      []).toOption.map fun items => items.map CDirItem.Name) = some [[65],[65]] :=
  ⟨twin_compressible,twin_chdir,by decide +kernel⟩

end Compress
end RootHelper
