import RootHelper.Posix.Leaves
import RootHelper.UploadItems

/-!
What the client sends for a selection: for every source the leaves of its tree, after the number of
files among them and the sum of their sizes.
-/

set_option autoImplicit false

namespace RootHelper
open Posix Control

/-- Where something is to go; it is an empty directory unless it has a content. -/
structure Item where
  path : Str
  content : Option Str
  deriving DecidableEq, Repr

def Item.bytes (item : Item) : Str :=
  match item.content with
  | some content => fileHeader item.path content.length ++ content
  | none => dirItem item.path

def numberOfFiles (items : List Item) : Nat := (items.map fun item => item.content.toList.length).sum

def sizeOfFiles (items : List Item) : Nat := (items.map fun item => (item.content.getD []).length).sum

def uploadStream (items : List Item) : Str :=
  littleEndian 8 (numberOfFiles items) ++ (littleEndian 8 (sizeOfFiles items) ++
    (items.flatMap Item.bytes ++ [0xFF]))

/-- The path of what lies at `t` below `dest`. -/
def pathUnder (dest : Str) (t : Path) : Str := t.foldl pathConcat dest

/-- The item for the leaf at `t` below `p`. -/
def itemAt (fs : FileSystem) (p : Path) (dest : Str) (t : Path) : Item :=
  ⟨pathUnder dest t,fs.fileAt (p ++ t)⟩

/-- For the pair `v` the items are sent, in some order; for a source that is not there, nothing. -/
def SendsTree (k : Kernel) (fs : FileSystem) (v : Str × Str) (items : List Item) : Prop :=
  match k.glance fs v.1 with
  | .ok p => ∃ l, fs.LeavesOf p l ∧ items = l.map (itemAt fs p v.2)
  | .error _ => items = []

variable {sys : System} {fs : FileSystem}

theorem length_le_flatMap {α : Type} {l : List α} {f : α → Str} (h : ∀ x ∈ l, f x ≠ []) :
    l.length ≤ (l.flatMap f).length := by
  induction l with
  | nil => exact Nat.le_refl _
  | cons x l ih =>
    have hx := List.length_pos_of_ne_nil (h x List.mem_cons_self)
    have hl := ih fun y hy => h y (List.mem_cons_of_mem _ hy)
    rw [List.flatMap_cons,List.length_append,List.length_cons]
    omega

theorem itemAt_cons (p : Path) (dest : Str) (c : Name) (t : Path) :
    itemAt fs p dest (c :: t) = itemAt fs (p ++ [c]) (pathConcat dest c) t := by
  simp [itemAt,pathUnder]

theorem numberOfFiles_append (items items' : List Item) :
    numberOfFiles (items ++ items') = numberOfFiles items + numberOfFiles items' := by
  simp [numberOfFiles]

theorem sizeOfFiles_append (items items' : List Item) :
    sizeOfFiles (items ++ items') = sizeOfFiles items + sizeOfFiles items' := by
  simp [sizeOfFiles]

/-- The count is right for what is sent. -/
def Tallies (counts : StsSz) (items : List Item) : Prop :=
  counts.tFiles = numberOfFiles items ∧ counts.tSize = sizeOfFiles items

/-- The files at or below `p`, and their sizes. -/
def Totals (fs : FileSystem) (p : Path) (counts : StsSz) : Prop :=
  counts.tFiles = fs.total (fun q => (fs.fileAt q).toList.length) p ∧
    counts.tSize = fs.total (fun q => ((fs.fileAt q).getD []).length) p

theorem Totals.tallies {p : Path} {counts : StsSz} (h : Totals fs p counts) {l : List Path}
    (hl : fs.LeavesOf p l) (dest : Str) : Tallies counts (l.map (itemAt fs p dest)) := by
  have hfile : ∀ (f : Option Str → Nat), f none = 0 → ∀ q, fs.has q → f (fs.fileAt q) ≠ 0 →
      fs.Leaf q := by
    intro f hf q _ hq
    cases hcontent : fs.fileAt q with
    | none => exact absurd (hcontent ▸ hf) hq
    | some content => exact FileSystem.leaf_of_fileAt hcontent
  have hfiles := hl.total (hfile (fun o => o.toList.length) rfl)
  have hsizes := hl.total (hfile (fun o => (o.getD []).length) rfl)
  refine ⟨?_,?_⟩
  · rw [h.1,hfiles,numberOfFiles,List.map_map]
    rfl
  · rw [h.2,hsizes,sizeOfFiles,List.map_map]
    rfl

/-- What the helper needs of the client: no call is refused, and there are no links. -/
structure Readable (sys : System) (fs : FileSystem) : Prop extends sys.Fair where
  permits : ∀ p c m, sys.permits p c m = true
  noLinks : fs.NoLinks

def Listed (k : Kernel) (fs : FileSystem) (x : Str) : Prop :=
  ∀ p, k.glance fs x = .ok p → fs.isDir p → absolute x ∧ NulFree x

section Below

variable {x y : Str} {p : Path} {c : Name} {mode : Nat}

theorem Readable.glance_child (h : Readable sys fs) (hx : NulFree x)
    (hp : sys.glance fs x = .ok p) (hdir : fs.node p = some (.dir mode)) (hc : c ∈ fs.children p)
    (hy : y = x ++ c ∧ endsWithSlash x ∨ y = x ++ slash :: c) :
    sys.glance fs y = .ok (p ++ [c]) := by
  have hproper := FileSystem.proper_of_has (FileSystem.mem_children.mp hc)
  have hfollow := Kernel.follow_of_glance hp hdir (by simp)
  rw [Kernel.glance_child hx hproper hy hfollow hdir,if_pos (h.permits _ _ _)]

end Below

theorem wp_countEntries {count : Str → CountMap → DiskM (StsSz × CountMap)} {src : Str} {p : Path}
    {ns : List Name} (hcount : ∀ c ∈ ns, ∀ m d, d.fs = fs → wp (count (src ++ slash :: c) m)
      (fun r d' => Quiet d d' ∧ Totals fs (p ++ [c]) r.1) (fun _ _ => False) d)
    {num : StsSz} {m : CountMap} {d : Disk} (hd : d.fs = fs) :
    wp (countEntries sys count (ns.map fun c => (src ++ slash :: c,c)) num m)
      (fun r d' => Quiet d d' ∧
        r.1.tFiles = num.tFiles +
          (ns.map fun c => fs.total (fun q => (fs.fileAt q).toList.length) (p ++ [c])).sum ∧
        r.1.tSize = num.tSize +
          (ns.map fun c => fs.total (fun q => ((fs.fileAt q).getD []).length) (p ++ [c])).sum)
      (fun _ _ => False) d := by
  induction ns generalizing num m d with
  | nil => exact ⟨refl_of Quiet d,rfl,rfl⟩
  | cons c ns ih =>
    rw [List.map_cons,countEntries,wp_bind]
    refine wp_efdL sys fun d₁ h₁ => ?_
    rw [wp_bind]
    refine wp_mono (hcount c List.mem_cons_self m d₁ (h₁.fs_eq.trans hd)) (fun r d₂ h₂ => ?_)
      fun _ _ h => h
    obtain ⟨hq₂,hfiles,hsize⟩ := h₂
    have hq := trans_of Quiet h₁ hq₂
    have hrest := @ih (fun c' hc' => hcount c' (List.mem_cons_of_mem _ hc')) (num + r.1) r.2 d₂
      (hq.fs_eq.trans hd)
    refine wp_mono hrest (fun r' d₃ h₃ => ?_) fun _ _ h => h
    obtain ⟨hq₃,hfiles₃,hsize₃⟩ := h₃
    have hadd : (num + r.1).tFiles = num.tFiles + r.1.tFiles ∧
      (num + r.1).tSize = num.tSize + r.1.tSize := ⟨rfl,rfl⟩
    refine ⟨trans_of Quiet hq hq₃,?_,?_⟩
    · rw [hfiles₃,hadd.1,hfiles,List.map_cons,List.sum_cons,Nat.add_assoc]
    · rw [hsize₃,hadd.2,hsize,List.map_cons,List.sum_cons,Nat.add_assoc]

theorem wp_countTotals (hread : Readable sys fs) {depth : Nat} {src : Str} {p : Path} {m : CountMap}
    {d : Disk} (hlisted : Listed sys.toKernel fs src) (hp : sys.glance fs src = .ok p)
    (hhas : fs.has p) (hdepth : fs.size p ≤ depth) (hd : d.fs = fs) :
    wp (countTotalStatsIntoMap sys depth src m) (fun r d' => Quiet d d' ∧ Totals fs p r.1)
      (fun _ _ => False) d := by
  induction depth generalizing src p m d with
  | zero =>
    have hpos := FileSystem.size_pos hhas
    omega
  | succ depth ih =>
    subst hd
    obtain ⟨n,hn⟩ := FileSystem.has_iff.mp hhas
    have hnode : Kernel.nodeAt d.fs (sys.glance d.fs src) = .ok n := by
      rw [hp]
      simp [Kernel.nodeAt,bind,Except.bind,hn]
    have hefd : efdAt sys.toKernel d.fs src = if n.isDir then .dir else .file := by
      unfold efdAt
      rw [hnode]
      cases n <;> rfl
    have htop := fun f => @FileSystem.total_children d.fs p f hhas _ (List.Perm.refl _)
    rw [countTotalStatsIntoMap,wp_bind]
    refine wp_existsIsFileIsDir_ fun d₁ h₁ => ?_
    rw [hefd]
    cases n with
    | link t => exact absurd hn (hread.noLinks p t)
    | file content mode =>
      simp only [Node.isDir,Bool.false_eq_true,if_false,wp_bind,osGetSize]
      refine wp_look_quiet (fun _ _ hk => System.lstatEffect_quiet hk) fun d₂ h₂ => ?_
      have hres : (sys.lstatEffect src d₁.fs).map Prod.fst = .ok (.file content mode) := by
        unfold Kernel.lstatEffect
        rw [h₁.fs_eq,hnode]
        rfl
      rw [hres]
      have hleaf : d.fs.Leaf p := FileSystem.leaf_of_fileAt (by rw [FileSystem.fileAt,hn])
      refine ⟨trans_of Quiet h₁ h₂,?_,?_⟩
      · rw [htop,hleaf.2,FileSystem.fileAt,hn]
        rfl
      · rw [htop,hleaf.2,FileSystem.fileAt,hn]
        rfl
    | dir mode =>
      have hfollow := Kernel.follow_of_glance hp hn (by simp)
      obtain ⟨habs,hnul⟩ := hlisted p hp (FileSystem.isDir_iff.mpr ⟨mode,hn⟩)
      simp only [Node.isDir,if_true,wp_bind]
      refine wp_openPlain_granted sys hread.grants habs (by rwa [h₁.fs_eq])
        (by rw [h₁.fs_eq]; exact FileSystem.isDir_iff.mpr ⟨mode,hn⟩) fun ns d₂ h₂ hperm => ?_
      rw [h₁.fs_eq] at hperm
      have hq := trans_of Quiet h₁ h₂
      have hentry : ∀ c ∈ ns, ∀ m d', d'.fs = d.fs → wp (countTotalStatsIntoMap sys depth
          (src ++ slash :: c) m) (fun r d'' => Quiet d' d'' ∧ Totals d.fs (p ++ [c]) r.1)
          (fun _ _ => False) d' := by
        intro c hc m d' hd'
        have hmem := hperm.mem_iff.mp hc
        have hchild := FileSystem.mem_children.mp hmem
        have hlt := FileSystem.size_child_lt hhas c
        have hproper := FileSystem.proper_of_has hchild
        have hlisted' : Listed sys.toKernel d.fs (src ++ slash :: c) := by
          refine fun _ _ _ => ⟨?_,?_⟩
          · unfold absolute at habs ⊢
            rw [List.head?_append,habs,Option.some_or]
          · simpa [NulFree,slash] using ⟨hnul,hproper.2.2.1⟩
        exact ih hlisted' (hread.glance_child hnul hp hn hmem (.inr rfl)) hchild (by omega) hd'
      refine wp_mono (wp_countEntries hentry hq.fs_eq) (fun r d₃ h₃ => ?_) fun _ _ h => h
      obtain ⟨hq₃,hfiles,hsize⟩ := h₃
      have htotal := fun f => @FileSystem.total_children d.fs p f hhas _ hperm
      refine ⟨trans_of Quiet hq hq₃,?_,?_⟩
      · rw [hfiles,htotal]
        simp [FileSystem.fileAt,hn]
      · rw [hsize,htotal]
        simp [FileSystem.fileAt,hn]

section Sending

variable {outDesc : Bool} {src dest cs : Str} {p : Path} {u : Transfer}

theorem wp_uploadEntries {upload : Str → Str → TransferM Int} {ns : List Name} (hns : ns.Nodup)
    (hup : ∀ c ∈ ns, ∀ u cs, Uploading fs u cs →
      wp (upload (pathConcat src c) (pathConcat dest c)) (fun _ u' =>
        ∃ l, fs.LeavesOf (p ++ [c]) l ∧ Uploading fs u'
          (cs ++ (l.map (itemAt fs (p ++ [c]) (pathConcat dest c))).flatMap Item.bytes))
        (fun _ _ => False) u)
    {ret : Int} (h : Uploading fs u cs) :
    wp (uploadEntries sys upload src dest (ns.map fun c => (src ++ slash :: c,c)) ret) (fun _ u' =>
      ∃ l, fs.Branches p ns l ∧
        Uploading fs u' (cs ++ (l.map (itemAt fs p dest)).flatMap Item.bytes))
      (fun _ _ => False) u := by
  induction ns generalizing u cs ret with
  | nil => exact ⟨[],FileSystem.branches_nil fs p,by simpa using h⟩
  | cons c ns ih =>
    obtain ⟨hc,hns⟩ := List.nodup_cons.mp hns
    rw [List.map_cons,uploadEntries,wp_bind,Transfer.withDisk,wp_run]
    change wp (efdL sys _) _ _ u.disk
    refine wp_efdL sys fun d hd => ?_
    rw [wp_bind]
    refine wp_mono (hup c List.mem_cons_self _ cs (h.quiet hd)) (fun ret_ u₁ h₁ => ?_)
      fun _ _ h => h
    obtain ⟨l,hl,h₁⟩ := h₁
    have hrest := @ih _ _ hns (fun c' hc' => hup c' (List.mem_cons_of_mem _ hc'))
      (if ret_ < 0 then ret_ else ret) h₁
    refine wp_mono hrest (fun _ u₂ h₂ => ?_) fun _ _ h => h
    obtain ⟨l',hl',h₂⟩ := h₂
    refine ⟨_,hl.branches hc hl',?_⟩
    have hmap : (l.map (c :: ·)).map (itemAt fs p dest) =
        l.map (itemAt fs (p ++ [c]) (pathConcat dest c)) := by
      rw [List.map_map]
      exact List.map_congr_left fun t _ => itemAt_cons p dest c t
    rwa [List.map_append,hmap,List.flatMap_append,← List.append_assoc]

theorem wp_upload (hread : Readable sys fs) {depth : Nat} (hlisted : Listed sys.toKernel fs src)
    (hp : sys.glance fs src = .ok p) (hhas : fs.has p) (hdepth : fs.size p ≤ depth)
    (h : Uploading fs u cs) :
    wp (genericUploadBasicRecursiveImplWithProgress sys outDesc depth src dest) (fun _ u' =>
      ∃ l, fs.LeavesOf p l ∧
        Uploading fs u' (cs ++ (l.map (itemAt fs p dest)).flatMap Item.bytes))
      (fun _ _ => False) u := by
  induction depth generalizing src dest p u cs with
  | zero =>
    have hpos := FileSystem.size_pos hhas
    omega
  | succ depth ih =>
    obtain ⟨n,hn⟩ := FileSystem.has_iff.mp hhas
    have hnode : Kernel.nodeAt fs (sys.glance fs src) = .ok n := by
      rw [hp]
      simp [Kernel.nodeAt,bind,Except.bind,hn]
    have hfs := h.fs_eq
    rw [genericUploadBasicRecursiveImplWithProgress,wp_bind,Transfer.withDisk,wp_run]
    change wp (osStatSize sys src) _ _ u.disk
    refine wp_osStatSize sys (fun e d' _ he => ?_) fun n' letter d₁ h₁ hn' hletter => ?_
    · rw [hfs,hnode] at he
      cases he
    · rw [hfs,hnode] at hn'
      obtain rfl := Except.ok.inj hn'
      have hu₁ := h.quiet h₁
      cases n with
      | link t => exact absurd hn (hread.noLinks p t)
      | file content mode =>
        have hleaf : fs.Leaf p := FileSystem.leaf_of_fileAt (by rw [FileSystem.fileAt,hn])
        have hne : letter ≠ 'd' := fun hd => by simp [Node.isDir] at hletter; exact hletter hd
        split
        · rename_i heq
          simp at heq
        · rename_i heq
          simp only [Option.some.injEq,Prod.mk.injEq] at heq
          exact absurd heq.1 hne
        · rename_i heq
          simp only [Option.some.injEq,Prod.mk.injEq,nodeSize] at heq
          rw [← heq.2]
          have hopen := Kernel.follow_of_glance hp hn (by simp)
          rw [wp_bind]
          refine wp_mono (wp_OSUpload hread.toFair hopen hn (Nat.le_refl _) hu₁)
            (fun r u₂ h₂ => ?_) fun _ _ h => h
          rw [wp_bind]
          refine wp_mono (prints_uploading (fun _ => prints_tell outDesc _) u₂ _ h₂.2)
            (fun _ u₃ h₃ => ?_) fun _ _ h => h
          rw [List.append_nil,List.take_length] at h₃
          refine ⟨[[]],hleaf.leavesOf,?_⟩
          simpa [itemAt,pathUnder,FileSystem.fileAt,hn,Item.bytes] using h₃
      | dir mode =>
        have hfollow := Kernel.follow_of_glance hp hn (by simp)
        obtain ⟨habs,hnul⟩ := hlisted p hp (FileSystem.isDir_iff.mpr ⟨mode,hn⟩)
        have hd : letter = 'd' := hletter.mpr rfl
        subst hd
        simp only
        have hfs₁ : d₁.fs = fs := hu₁.fs_eq
        rw [wp_bind,Transfer.withDisk,wp_run]
        change wp (openPlain sys src) _ _ d₁
        refine wp_openPlain_granted sys hread.grants habs (by rwa [hfs₁])
          (by rw [hfs₁]; exact FileSystem.isDir_iff.mpr ⟨mode,hn⟩) fun ns d₂ h₂ hperm => ?_
        rw [hfs₁] at hperm
        have hu₂ := hu₁.quiet h₂
        have hentry : ∀ c ∈ ns, ∀ u cs, Uploading fs u cs →
            wp (genericUploadBasicRecursiveImplWithProgress sys outDesc depth (pathConcat src c)
              (pathConcat dest c)) (fun _ u' => ∃ l, fs.LeavesOf (p ++ [c]) l ∧ Uploading fs u'
                (cs ++ (l.map (itemAt fs (p ++ [c]) (pathConcat dest c))).flatMap Item.bytes))
              (fun _ _ => False) u := by
          intro c hc u cs hu
          have hmem := hperm.mem_iff.mp hc
          have hchild := FileSystem.mem_children.mp hmem
          have hlt := FileSystem.size_child_lt hhas c
          have hproper := FileSystem.proper_of_has hchild
          exact ih (fun _ _ _ => ⟨absolute_pathConcat habs,nulFree_pathConcat hnul hproper.2.2.1⟩)
            (hread.glance_child hnul hp hn hmem (pathConcat_shape src c)) hchild (by omega) hu
        have hns : ns.Nodup := hperm.nodup_iff.mpr (fs.nodup_children p)
        rw [wp_bind]
        refine wp_mono (wp_uploadEntries hns hentry hu₂) (fun ret u₃ h₃ => ?_) fun _ _ h => h
        obtain ⟨l,hl,h₃⟩ := h₃
        simp only [Option.getD_some,List.map_eq_nil_iff]
        cases ns with
        | nil =>
          -- an item of its own for an empty directory
          rw [if_pos rfl,wp_bind]
          have hleaf : fs.Leaf p := ⟨hhas,hperm.symm.eq_nil⟩
          obtain rfl : l = [] := List.eq_nil_iff_forall_not_mem.mpr fun t ht => by
            obtain ⟨c,_,hc,_⟩ := (hl.mem t).mp ht
            simp at hc
          refine wp_mono (prints_uploading (fun _ => prints_network _) u₃ _ h₃) (fun _ u₄ h₄ => ?_)
            fun _ _ h => h
          refine ⟨[[]],hleaf.leavesOf,?_⟩
          simpa [itemAt,pathUnder,FileSystem.fileAt,hn,Item.bytes,Chunk.encode] using h₄
        | cons c ns =>
          rw [if_neg (by simp)]
          exact ⟨l,hl.leavesOf hperm List.mem_cons_self,h₃⟩

theorem wp_upload_missing {depth : Nat} (hdepth : 0 < depth)
    (hnone : ∀ p, sys.glance fs src = .ok p → ¬ fs.has p) (h : Uploading fs u cs) :
    wp (genericUploadBasicRecursiveImplWithProgress sys outDesc depth src dest)
      (fun _ u' => Uploading fs u' cs) (fun _ _ => False) u := by
  obtain ⟨depth,rfl⟩ := Nat.exists_eq_succ_of_ne_zero (Nat.pos_iff_ne_zero.mp hdepth)
  have hfs := h.fs_eq
  rw [genericUploadBasicRecursiveImplWithProgress,wp_bind,Transfer.withDisk,wp_run]
  change wp (osStatSize sys src) _ _ u.disk
  refine wp_osStatSize sys (fun e d' hd _ => h.quiet hd) fun n letter d' _ hn _ => ?_
  obtain ⟨p,hp,hnode⟩ := Kernel.nodeAt_ok hn
  rw [hfs] at hp hnode
  exact absurd (FileSystem.has_iff.mpr ⟨n,hnode⟩) (hnone p hp)

end Sending

theorem sendsTree_cases {v : Str × Str} {items : List Item} (h : SendsTree sys.toKernel fs v items) :
    (∃ p l, sys.glance fs v.1 = .ok p ∧ fs.has p ∧ fs.LeavesOf p l ∧
      items = l.map (itemAt fs p v.2)) ∨
    (∀ p, sys.glance fs v.1 = .ok p → ¬ fs.has p) ∧ items = [] := by
  unfold SendsTree at h
  cases hp : sys.glance fs v.1 with
  | error e =>
    rw [hp] at h
    exact .inr ⟨by simp,h⟩
  | ok p =>
    rw [hp] at h
    obtain ⟨l,hl,rfl⟩ := h
    by_cases hhas : fs.has p
    · exact .inl ⟨p,l,rfl,hhas,hl,rfl⟩
    · refine .inr ⟨fun q hq => ?_,?_⟩
      · obtain rfl := Except.ok.inj hq
        exact hhas
      · have hnil : l = [] := List.eq_nil_iff_forall_not_mem.mpr fun t ht =>
          FileSystem.not_has_below hhas (List.prefix_append p t) ((hl.mem t).mp ht).1
        rw [hnil,List.map_nil]

theorem sendsTree_missing {v : Str × Str} (hnone : ∀ p, sys.glance fs v.1 = .ok p → ¬ fs.has p) :
    SendsTree sys.toKernel fs v [] := by
  unfold SendsTree
  cases hp : sys.glance fs v.1 with
  | error e => rfl
  | ok p =>
    refine ⟨[],⟨by simp,fun t => ?_⟩,rfl⟩
    refine iff_of_false (by simp) fun hleaf => ?_
    exact FileSystem.not_has_below (hnone p hp) (List.prefix_append p t) hleaf.1

theorem sendsTree_there {v : Str × Str} {p : Path} {l : List Path} (hp : sys.glance fs v.1 = .ok p)
    (hl : fs.LeavesOf p l) : SendsTree sys.toKernel fs v (l.map (itemAt fs p v.2)) := by
  unfold SendsTree
  rw [hp]
  exact ⟨l,hl,rfl⟩

section Pair

variable {v : Str × Str} {depth : Nat}

theorem wp_count_source (hread : Readable sys fs) (hv : Listed sys.toKernel fs v.1)
    (hdepth : fs.paths.length < depth) {m : CountMap} {d : Disk} (hd : d.fs = fs) :
    wp (countTotalStatsIntoMap sys depth v.1 m)
      (fun r d' => Quiet d d' ∧ ∀ items, SendsTree sys.toKernel fs v items → Tallies r.1 items)
      (fun _ _ => False) d := by
  by_cases hthere : ∃ p, sys.glance fs v.1 = .ok p ∧ fs.has p
  · obtain ⟨p,hp,hhas⟩ := hthere
    have hsize := fs.size_le p
    refine wp_mono (wp_countTotals hread hv hp hhas (by omega) hd) (fun r d' h => ?_)
      fun _ _ h => h
    refine ⟨h.1,fun items hitems => ?_⟩
    rcases sendsTree_cases hitems with ⟨q,l,hq,_,hl,rfl⟩ | ⟨hnone,_⟩
    · obtain rfl := Except.ok.inj (hp.symm.trans hq)
      exact h.2.tallies hl v.2
    · exact absurd hhas (hnone p hp)
  · have hnone : ∀ p, sys.glance fs v.1 = .ok p → ¬ fs.has p := fun p hp hhas =>
      hthere ⟨p,hp,hhas⟩
    obtain ⟨depth,rfl⟩ := Nat.exists_eq_add_of_lt hdepth
    have hefd : efdAt sys.toKernel d.fs v.1 = .none := by
      unfold efdAt
      cases hn : Kernel.nodeAt d.fs (sys.glance d.fs v.1) with
      | error e => rfl
      | ok n =>
        obtain ⟨p,hp,hnode⟩ := Kernel.nodeAt_ok hn
        rw [hd] at hp hnode
        exact absurd (FileSystem.has_iff.mpr ⟨n,hnode⟩) (hnone p hp)
    rw [countTotalStatsIntoMap,wp_bind]
    refine wp_existsIsFileIsDir_ fun d₁ h₁ => ?_
    rw [hefd]
    refine ⟨h₁,fun items hitems => ?_⟩
    rcases sendsTree_cases hitems with ⟨q,_,hq,hhas,_⟩ | ⟨_,rfl⟩
    · exact absurd hhas (hnone q hq)
    · exact ⟨rfl,rfl⟩

theorem wp_upload_source {outDesc : Bool} {cs : Str} {u : Transfer} (hread : Readable sys fs)
    (hv : Listed sys.toKernel fs v.1) (hdepth : fs.paths.length < depth) (h : Uploading fs u cs) :
    wp (genericUploadBasicRecursiveImplWithProgress sys outDesc depth v.1 v.2) (fun _ u' =>
      ∃ items, SendsTree sys.toKernel fs v items ∧ Uploading fs u' (cs ++ items.flatMap Item.bytes))
      (fun _ _ => False) u := by
  by_cases hthere : ∃ p, sys.glance fs v.1 = .ok p ∧ fs.has p
  · obtain ⟨p,hp,hhas⟩ := hthere
    have hsize := fs.size_le p
    refine wp_mono (wp_upload hread hv hp hhas (by omega) h) (fun _ u' h' => ?_)
      fun _ _ h => h
    obtain ⟨l,hl,hu'⟩ := h'
    exact ⟨_,sendsTree_there hp hl,hu'⟩
  · have hnone : ∀ p, sys.glance fs v.1 = .ok p → ¬ fs.has p := fun p hp hhas =>
      hthere ⟨p,hp,hhas⟩
    refine wp_mono (wp_upload_missing (by omega) hnone h) (fun _ u' h' => ?_) fun _ _ h => h
    exact ⟨[],sendsTree_missing hnone,by simpa using h'⟩

end Pair

/-- What is sent for a selection, source by source. -/
inductive SendsAll (k : Kernel) (fs : FileSystem) : List (Str × Str) → List Item → Prop
  | nil : SendsAll k fs [] []
  | cons {x : Str × Str} {v : List (Str × Str)} {items rest : List Item} :
      SendsTree k fs x items → SendsAll k fs v rest → SendsAll k fs (x :: v) (items ++ rest)

section Selection

variable {v : List (Str × Str)} {depth : Nat}

theorem wp_countSelection (hread : Readable sys fs) (hv : ∀ x ∈ v, Listed sys.toKernel fs x.1)
    (hdepth : fs.paths.length < depth) {counts : StsSz} {m : CountMap} {d : Disk} (hd : d.fs = fs) :
    wp (countSelection sys depth v counts m) (fun counts' d' => Quiet d d' ∧
        ∀ items, SendsAll sys.toKernel fs v items →
          counts'.tFiles = counts.tFiles + numberOfFiles items ∧
            counts'.tSize = counts.tSize + sizeOfFiles items)
      (fun _ _ => False) d := by
  induction v generalizing counts m d with
  | nil =>
    refine ⟨refl_of Quiet d,fun items h => ?_⟩
    cases h
    exact ⟨rfl,rfl⟩
  | cons x v ih =>
    rw [countSelection,wp_bind]
    refine wp_mono (wp_count_source hread (hv x List.mem_cons_self) hdepth hd) (fun r d₁ h₁ => ?_)
      fun _ _ h => h
    obtain ⟨hq₁,htally⟩ := h₁
    have hrest := @ih (fun y hy => hv y (List.mem_cons_of_mem _ hy)) (counts + r.1) r.2 d₁
      (hq₁.fs_eq.trans hd)
    refine wp_mono hrest (fun counts' d₂ h₂ => ?_) fun _ _ h => h
    obtain ⟨hq₂,hcounts⟩ := h₂
    refine ⟨trans_of Quiet hq₁ hq₂,fun items h => ?_⟩
    cases h with
    | cons hitems hrest =>
      obtain ⟨hfiles,hsize⟩ := htally _ hitems
      obtain ⟨hfiles',hsize'⟩ := hcounts _ hrest
      have hadd : (counts + r.1).tFiles = counts.tFiles + r.1.tFiles ∧
        (counts + r.1).tSize = counts.tSize + r.1.tSize := ⟨rfl,rfl⟩
      rw [numberOfFiles_append,sizeOfFiles_append]
      omega

theorem wp_uploadSelection (hread : Readable sys fs) (hv : ∀ x ∈ v, Listed sys.toKernel fs x.1)
    (hdepth : fs.paths.length < depth) {cs : Str} {u : Transfer} (h : Uploading fs u cs) :
    wp (uploadSelection sys depth v) (fun _ u' => ∃ items, SendsAll sys.toKernel fs v items ∧
      Uploading fs u' (cs ++ items.flatMap Item.bytes)) (fun _ _ => False) u := by
  induction v generalizing cs u with
  | nil => exact ⟨[],.nil,by simpa using h⟩
  | cons x v ih =>
    rw [uploadSelection,wp_bind]
    refine wp_mono (wp_upload_source hread (hv x List.mem_cons_self) hdepth h) (fun _ u₁ h₁ => ?_)
      fun _ _ h => h
    obtain ⟨items,hitems,h₁⟩ := h₁
    refine wp_mono (ih (fun y hy => hv y (List.mem_cons_of_mem _ hy)) h₁) (fun _ u₂ h₂ => ?_)
      fun _ _ h => h
    obtain ⟨rest,hrest,h₂⟩ := h₂
    refine ⟨items ++ rest,.cons hitems hrest,?_⟩
    rwa [List.flatMap_append,← List.append_assoc]

end Selection

/-- The request has been read: on the local connection the path pairs come next. -/
structure Requested (fs : FileSystem) (v : List (Str × Str)) (u : Transfer) : Prop where
  disk : u.disk.fs = fs
  client : ∃ out rest, Hears out u.cl (pathPairsBytes v ++ rest)
  network : ∃ inp, Tells inp u.rcl []

theorem wp_client_upload (hread : Readable sys fs) {v : List (Str × Str)}
    (hlen : ∀ x ∈ v, x.1 ≠ [] ∧ x.1.length < 65536 ∧ x.2.length < 65536)
    (hv : ∀ x ∈ v, Listed sys.toKernel fs x.1) {u : Transfer} (h : Requested fs v u) :
    wp (client_upload sys) (fun _ u' => ∃ items, SendsAll sys.toKernel fs v items ∧
      u'.rcl.bytes = ACTION_UPLOAD :: uploadStream items) (fun _ _ => False) u := by
  obtain ⟨hdisk,⟨out,rest,hcl⟩,inp,hrcl⟩ := h
  have hreads : clDesc.toSource.Reads (fun (u : Transfer) (bs : Str) =>
      Hears out u.cl bs ∧ u.disk.fs = fs ∧ Tells inp u.rcl []) := fun bs =>
    (conn_reads out bs).run (L := Transfer.clPart) fun _ _ h => h
  have hturns : v.length < u.cl.inp.length + 1 := by
    have hpairs := length_le_flatMap (l := v) (f := pairBytes) fun x _ => by
      simp [pairBytes,littleEndian]
    rw [hcl]
    simp only [pathPairsBytes,List.length_append]
    omega
  rw [client_upload,wp_bind,wp_get,wp_bind]
  refine wp_mono (parses_pathPairs hreads hlen hturns u rest ⟨hcl,hdisk,hrcl⟩) (fun v' u₁ h₁ => ?_)
    fun _ _ h => h
  obtain ⟨rfl,hcl₁,hfs₁,hrcl₁⟩ := h₁
  simp only
  rw [wp_bind,Transfer.withDisk,wp_run]
  refine wp_mono (wp_countSelection hread hv (by rw [hdisk]; omega) hfs₁) (fun counts d₂ h₂ => ?_)
    fun _ _ h => h
  obtain ⟨hq₂,hcounts⟩ := h₂
  have htold : Tells rest u₁.cl u₁.cl.bytes := by
    rw [hcl₁]
    exact ⟨rfl,rfl,rfl,rfl⟩
  have hup : Uploading fs { u₁ with disk := d₂ } [] :=
    ⟨(d₂,u₁.offset),hq₂.fs_eq.trans hfs₁,rfl,⟨inp,hrcl₁⟩,⟨rest,_,htold⟩⟩
  have hnet := fun c => @prints_uploading fs _ _ _ fun f => @prints_network f c
  have htell := fun c => @prints_uploading fs _ _ _ fun f => @prints_tell f true c
  refine (hnet _).before hup fun _ u₃ h₃ => (hnet _).before h₃ fun _ u₄ h₄ =>
    (hnet _).before h₄ fun _ u₅ h₅ => (htell _).before h₅ fun _ u₆ h₆ =>
    (htell _).before h₆ fun _ u₇ h₇ => ?_
  rw [wp_bind]
  refine wp_mono (wp_uploadSelection hread hv (by rw [hdisk]; omega) h₇) (fun _ u₈ h₈ => ?_)
    fun _ _ h => h
  obtain ⟨items,hitems,h₈⟩ := h₈
  refine (htell _).before h₈ fun _ u₉ h₉ => ?_
  refine wp_mono (hnet _ u₉ _ h₉) (fun _ u' h' => ?_) fun _ _ h => h
  obtain ⟨_,_,_,⟨_,hrcl'⟩,_⟩ := h'
  obtain ⟨hfiles,hsize⟩ := hcounts items hitems
  refine ⟨items,hitems,?_⟩
  rw [hrcl'.2.2.2,hfiles,hsize]
  simp [uploadStream,Chunk.encode]

end RootHelper
