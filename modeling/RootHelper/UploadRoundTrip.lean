import RootHelper.ItemDownload

/-!
An upload from one party to the other: what the sender writes is taken to its end, and at every
destination there is then what is at the source.
-/

set_option autoImplicit false

namespace RootHelper
open Posix Control

variable {sys : System} {fs gs : FileSystem}

def Apart (p q : Path) : Prop := ¬ p <+: q ∧ ¬ q <+: p

theorem Apart.symm {p q : Path} (h : Apart p q) : Apart q p := ⟨h.2,h.1⟩

theorem Apart.below {p q : Path} (h : Apart p q) (t u : Path) : Apart (p ++ t) (q ++ u) :=
  incompRel_append h t u

/-- The path `y` goes to `q`, below a directory that is there, not the root, in which there is
nothing on the way. -/
structure FreshWay (k : Kernel) (gs : FileSystem) (y : Str) (q : Path) : Prop where
  absolute : absolute y
  nulFree : NulFree y
  way : ∃ cs b c rel, components y = cs ++ c :: rel ∧ k.walk gs Kernel.maxLinks [] cs = .ok b ∧
    gs.isDir b ∧ b ≠ [] ∧ (∀ d ∈ c :: rel, ProperName d) ∧ ¬ gs.has (b ++ [c]) ∧ q = b ++ c :: rel

section FreshWay

variable {k : Kernel} {y : Str} {q : Path}

theorem FreshWay.child {c : Name} (h : FreshWay k gs y q) (hc : ProperName c) :
    FreshWay k gs (pathConcat y c) (q ++ [c]) := by
  obtain ⟨habs,hnul,cs,b,d,rel,hcomp,hwalk,hdir,hb,hproper,hfree,rfl⟩ := h
  refine ⟨absolute_pathConcat habs,nulFree_pathConcat hnul hc.2.2.1,cs,b,d,rel ++ [c],?_,hwalk,hdir,
    hb,fun e he => ?_,hfree,by simp⟩
  · rw [components_pathConcat y hc,hcomp]
    simp
  · rw [← List.cons_append,List.mem_append] at he
    rcases he with he | he
    · exact hproper e he
    · rwa [List.mem_singleton.mp he]

theorem FreshWay.under {t : Path} (h : FreshWay k gs y q) (ht : ∀ c ∈ t, ProperName c) :
    FreshWay k gs (pathUnder y t) (q ++ t) := by
  induction t generalizing y q with
  | nil => rwa [List.append_nil]
  | cons c t ih =>
    have hchild := h.child (ht c List.mem_cons_self)
    have hrest := ih hchild fun d hd => ht d (List.mem_cons_of_mem _ hd)
    rwa [List.append_assoc,List.singleton_append] at hrest

theorem FreshWay.free (h : FreshWay k gs y q) : ¬ gs.has q := by
  obtain ⟨_,_,_,b,c,rel,_,_,_,_,_,hfree,rfl⟩ := h
  exact FileSystem.not_has_below hfree ⟨rel,by simp⟩

end FreshWay

/-! ### Taking items -/

/-- What was taken so far: each item is where it goes, and there is nothing more but directories
above. -/
structure Taken (gs : FileSystem) (done : List (Item × Path)) (fs : FileSystem) : Prop where
  le : gs.Le fs
  new : ∀ r, fs.has r → gs.has r ∨ ∃ e ∈ done, r <+: e.2
  file : ∀ e ∈ done, ∀ bytes, e.1.content = some bytes → fs.fileAt e.2 = some bytes
  dir : ∀ e ∈ done, e.1.content = none → fs.isDir e.2

theorem taken_nil (gs : FileSystem) : Taken gs [] gs :=
  ⟨.refl gs,fun _ h => .inl h,by simp,by simp⟩

theorem fileAt_le {p : Path} {bytes : Str} (h : fs.Le gs) (hp : fs.fileAt p = some bytes) :
    gs.fileAt p = some bytes := by
  unfold FileSystem.fileAt at hp ⊢
  split at hp
  · rename_i hnode
    rw [h _ _ hnode]
    exact hp
  · simp at hp

section Taken

variable {done : List (Item × Path)} {e : Item × Path}

theorem Taken.has (h : Taken gs done fs) (he : e ∈ done) : fs.has e.2 := by
  cases hcontent : e.1.content with
  | none => exact FileSystem.has_of_isDir (h.dir e he hcontent)
  | some bytes => exact (FileSystem.leaf_of_fileAt (h.file e he bytes hcontent)).1

theorem Taken.step {fs' : FileSystem} (h : Taken gs done fs)
    (hgets : Gets fs fs' e.2 e.1.content) : Taken gs (e :: done) fs' := by
  refine ⟨h.le.trans hgets.le,fun r hr => ?_,fun e' he' bytes hbytes => ?_,fun e' he' hno => ?_⟩
  · rcases hgets.new r hr with hold | hpre
    · rcases h.new r hold with hold | ⟨e',he',hpre⟩
      · exact .inl hold
      · exact .inr ⟨e',List.mem_cons_of_mem _ he',hpre⟩
    · exact .inr ⟨e,List.mem_cons_self,hpre⟩
  · rcases List.mem_cons.mp he' with rfl | he'
    · exact hgets.file bytes hbytes
    · exact fileAt_le hgets.le (h.file e' he' bytes hbytes)
  · rcases List.mem_cons.mp he' with rfl | he'
    · exact hgets.dir hno
    · exact Extends.isDir_le hgets.le (h.dir e' he' hno)

theorem Taken.leadsTo {k : Kernel} (h : Taken gs done fs) (hlead : FreshWay k gs e.1.path e.2)
    (hapart : ∀ e' ∈ done, Apart e.2 e'.2) : LeadsTo k fs e.1.path e.2 := by
  have hnot := hlead.free
  obtain ⟨habs,hnul,cs,b,c,rel,hcomp,hwalk,hdir,hb,hproper,hfree,hq⟩ := hlead
  have hcs : cs ≠ [] := by
    rintro rfl
    exact hb (Except.ok.inj hwalk).symm
  obtain ⟨rel',c',hrel⟩ := (List.eq_nil_or_concat' (c :: rel)).resolve_left (by simp)
  rw [hrel] at hcomp hproper hq
  refine ⟨habs,hnul,⟨cs,b,rel',c',hcomp,hcs,⟨Kernel.walk_le h.le hwalk,Extends.isDir_le h.le hdir,
    fun d hd => hproper d (by simp [hd]),fun t ht hhas => ?_⟩,hproper c' (by simp),hq⟩,fun hhas => ?_⟩
  · have hbelow : b ++ t <+: e.2 := by
      rw [hq]
      exact (List.prefix_append_right_inj b).mpr (ht.trans (List.prefix_append _ _))
    rcases h.new _ hhas with hold | ⟨e',he',hpre⟩
    · -- of what was there before only `b` is on the way
      cases t with
      | nil =>
        rw [List.append_nil]
        exact Extends.isDir_le h.le hdir
      | cons d t =>
        have hd : d :: t <+: c :: rel := by
          rw [hrel]
          exact ht.trans (List.prefix_append _ _)
        obtain rfl := (List.cons_prefix_cons.mp hd).1
        exact absurd hold (FileSystem.not_has_below hfree ⟨t,by simp⟩)
    · have hne : b ++ t ≠ e'.2 := fun heq => (hapart e' he').2 (heq ▸ hbelow)
      exact FileSystem.isDir_of_above (h.has he') hpre hne
  · rcases h.new _ hhas with hold | ⟨e',he',hpre⟩
    · exact hnot hold
    · exact (hapart e' he').1 hpre

end Taken

/-- The formats have room for the item, and its path is one for what it is. -/
structure Sendable (k : Kernel) (gs : FileSystem) (e : Item × Path) : Prop where
  leads : FreshWay k gs e.1.path e.2
  length : e.1.path.length < 65536
  file : ∀ bytes, e.1.content = some bytes → bytes.length < 2^64 ∧ ¬ endsWithSlash e.1.path

section Items

variable {cl : Bool} {rest : Str} {w : Transfer} {f : Disk × Nat} {done todo : List (Item × Path)}

theorem wp_downloadItem {e : Item × Path} {turns : Nat} (hfair : sys.Fair)
    (hperm : ∀ p c m, sys.permits p c m = true) (hitem : Sendable sys.toKernel gs e)
    (hlead : LeadsTo sys.toKernel fs e.1.path e.2) (hf : f.1.fs = fs)
    (h : Listening f w (e.1.bytes ++ rest)) {Q : Unit → Transfer → Prop}
    {E : Stop → Transfer → Prop} (hnext : ∀ w' f', Listening f' w' rest →
      Gets fs f'.1.fs e.2 e.1.content → wp (downloadItems sys cl turns) Q E w') :
    wp (downloadItems sys cl (turns+1)) Q E w := by
  obtain ⟨⟨path,content⟩,q⟩ := e
  rw [downloadItems]
  cases content with
  | none =>
    refine (parses_dirItem network_reads.some hitem.length).before h fun w₁ h₁ => ?_
    simp only
    rw [if_neg (by decide),if_neg (by decide),if_pos trivial,wp_bind]
    refine wp_mono (wp_downloadDir hfair hperm hlead hf h₁) (fun _ w₂ h₂ => ?_) fun _ _ h => h.elim
    obtain ⟨f₂,h₂,hgets⟩ := h₂
    exact hnext w₂ f₂ h₂ hgets
  | some bytes =>
    obtain ⟨hsize,hend⟩ := hitem.file bytes rfl
    change Listening f w ((fileHeader path bytes.length ++ bytes) ++ rest) at h
    rw [List.append_assoc] at h
    refine (parses_fileHeader network_reads.some hitem.length hsize).before h fun w₁ h₁ => ?_
    simp only
    rw [if_neg (by decide),if_pos trivial,wp_bind]
    refine wp_mono (wp_downloadFile hfair hperm hlead hend hf h₁) (fun _ w₂ h₂ => ?_)
      fun _ _ h => h.elim
    obtain ⟨f₂,h₂,hgets⟩ := h₂
    exact hnext w₂ f₂ h₂ hgets

theorem wp_downloadItems (hfair : sys.Fair) (hperm : ∀ p c m, sys.permits p c m = true)
    (hitems : ∀ e ∈ todo, Sendable sys.toKernel gs e)
    (hapart : (todo.map Prod.snd).Pairwise Apart)
    (hdone : ∀ e ∈ todo, ∀ e' ∈ done, Apart e.2 e'.2) {turns : Nat} (hturns : todo.length < turns)
    (htaken : Taken gs done f.1.fs)
    (h : Listening f w (todo.flatMap (fun e => e.1.bytes) ++ 0xFF :: rest)) :
    wp (downloadItems sys cl turns) (fun _ w' => ∃ f', Listening f' w' rest ∧
      Taken gs (todo.reverse ++ done) f'.1.fs) (fun _ _ => False) w := by
  induction todo generalizing turns w f done with
  | nil =>
    obtain ⟨turns,rfl⟩ := Nat.exists_eq_succ_of_ne_zero (Nat.ne_of_gt hturns)
    rw [downloadItems]
    rw [List.flatMap_nil,List.nil_append,← List.singleton_append] at h
    refine (parses_endOfList network_reads.some).before h fun w₁ h₁ => ?_
    rw [if_pos rfl]
    exact ⟨f,h₁,htaken⟩
  | cons e todo ih =>
    obtain ⟨turns,rfl⟩ := Nat.exists_eq_succ_of_ne_zero (Nat.ne_of_gt (Nat.zero_lt_of_lt hturns))
    rw [List.map_cons,List.pairwise_cons] at hapart
    rw [List.flatMap_cons,List.append_assoc] at h
    have hlead := htaken.leadsTo (hitems e List.mem_cons_self).leads
      (hdone e List.mem_cons_self)
    refine wp_downloadItem hfair hperm (hitems e List.mem_cons_self) hlead rfl h
      fun w₁ f₁ h₁ hgets => ?_
    have hdone₁ : ∀ e' ∈ todo, ∀ e'' ∈ e :: done, Apart e'.2 e''.2 := by
      intro e' he' e'' he''
      rcases List.mem_cons.mp he'' with rfl | he''
      · exact (hapart.1 e'.2 (List.mem_map_of_mem he')).symm
      · exact hdone e' (List.mem_cons_of_mem _ he') e'' he''
    have hrest := ih (fun e' he' => hitems e' (List.mem_cons_of_mem _ he')) hapart.2 hdone₁
      (Nat.lt_of_succ_lt_succ hturns) (htaken.step hgets) h₁
    rwa [List.reverse_cons,List.append_assoc,List.singleton_append]

end Items

/-! ### A whole upload -/

/-- The same to a reader: both a file with the same content, or both a directory, or nothing. -/
def Alike : Option Node → Option Node → Prop
  | none, none => True
  | some (.file content _), some (.file content' _) => content = content'
  | some (.dir _), some (.dir _) => True
  | _, _ => False

/-- What is at `t` below the source `x`. -/
def sourceAt (k : Kernel) (fs : FileSystem) (x : Str) (t : Path) : Option Node :=
  match k.glance fs x with
  | .ok p => fs.node (p ++ t)
  | .error _ => none

def Recreated (k : Kernel) (fs : FileSystem) (x : Str) (gs : FileSystem) (q : Path) : Prop :=
  ∀ t, Alike (sourceAt k fs x t) (gs.node (q ++ t))

/-- A pair the receiving party has a place for: a path with a slash at its end is not one for a
file, and the paths of all that is below fit sixteen bits. -/
structure Placed (client server : Kernel) (fs gs : FileSystem) (v : Str × Str) (q : Path) : Prop where
  leads : FreshWay server gs v.2 q
  slash : endsWithSlash v.2 → ∀ content mode, sourceAt client fs v.1 [] ≠ some (.file content mode)
  fits : ∀ t n, sourceAt client fs v.1 t = some n → (pathUnder v.2 t).length < 65536

def targets (fs : FileSystem) (p : Path) (dest : Str) (q : Path) (l : List Path) :
    List (Item × Path) := l.map fun t => (itemAt fs p dest t,q ++ t)

section Targets

variable {client server : System} {v : Str × Str} {p q : Path} {l : List Path}

theorem not_endsWithSlash_pathUnder (dest : Str) {t : Path} (ht : t ≠ [])
    (hproper : ∀ c ∈ t, ProperName c) : ¬ endsWithSlash (pathUnder dest t) := by
  obtain ⟨u,c,rfl⟩ := (List.eq_nil_or_concat' t).resolve_left ht
  have hpath : pathUnder dest (u ++ [c]) = pathConcat (pathUnder dest u) c := by
    simp [pathUnder]
  rw [hpath]
  exact not_endsWithSlash_pathConcat _ (hproper c (by simp))

theorem targets_sendable (hsizes : ∀ r content, fs.fileAt r = some content → content.length < 2^64)
    (hv : Placed client.toKernel server.toKernel fs gs v q) (hp : client.glance fs v.1 = .ok p)
    (hl : fs.LeavesOf p l) : ∀ e ∈ targets fs p v.2 q l, Sendable server.toKernel gs e := by
  intro e he
  obtain ⟨t,ht,rfl⟩ := List.mem_map.mp he
  have hhas := ((hl.mem t).mp ht).1
  have hproper := FileSystem.proper_of_mem hhas
  obtain ⟨n,hn⟩ := FileSystem.has_iff.mp hhas
  have hsource : ∀ t, sourceAt client.toKernel fs v.1 t = fs.node (p ++ t) := by
    intro t
    rw [sourceAt,hp]
  refine ⟨hv.leads.under hproper,hv.fits t n (by rw [hsource,hn]),fun bytes hbytes => ?_⟩
  change fs.fileAt (p ++ t) = some bytes at hbytes
  refine ⟨hsizes _ _ hbytes,?_⟩
  by_cases hnil : t = []
  · subst hnil
    intro hend
    rw [List.append_nil] at hbytes
    unfold FileSystem.fileAt at hbytes
    split at hbytes
    · rename_i content mode hnode
      exact hv.slash hend content mode (by rw [hsource,List.append_nil,hnode])
    · simp at hbytes
  · exact not_endsWithSlash_pathUnder _ hnil hproper

theorem targets_apart (hl : fs.LeavesOf p l) (dest : Str) (q : Path) :
    ((targets fs p dest q l).map Prod.snd).Pairwise Apart := by
  have hpair : l.Pairwise fun t u => Apart (q ++ t) (q ++ u) := by
    refine hl.nodup.imp_of_mem fun {t u} ht hu hne => ?_
    have key : ∀ {t u}, t ∈ l → u ∈ l → q ++ t <+: q ++ u → t = u := by
      intro t u ht hu hpre
      have hpre := (List.prefix_append_right_inj p).mpr ((List.prefix_append_right_inj q).mp hpre)
      exact List.append_cancel_left (((hl.mem t).mp ht).eq hpre ((hl.mem u).mp hu).1)
    exact ⟨fun h => hne (key ht hu h),fun h => hne (key hu ht h).symm⟩
  rw [targets,List.map_map]
  exact List.pairwise_map.mpr hpair

end Targets

/-- What is to be taken below `q` are the leaves of the source `x`. -/
structure Assigned (k : Kernel) (fs : FileSystem) (todo : List (Item × Path)) (v : Str × Str)
    (q : Path) : Prop where
  there : ∀ p t, k.glance fs v.1 = .ok p → fs.Leaf (p ++ t) → (itemAt fs p v.2 t,q ++ t) ∈ todo
  only : ∀ e ∈ todo, q <+: e.2 → ∃ p t, k.glance fs v.1 = .ok p ∧ fs.Leaf (p ++ t) ∧ e.2 = q ++ t

/-- What is to be taken for a whole selection. -/
structure Plan (client server : Kernel) (fs gs : FileSystem) (v : List (Str × Str))
    (places : List Path) (todo : List (Item × Path)) : Prop where
  sendable : ∀ e ∈ todo, Sendable server gs e
  apart : (todo.map Prod.snd).Pairwise Apart
  below : ∀ e ∈ todo, ∃ q ∈ places, q <+: e.2
  assigned : List.Forall₂ (Assigned client fs todo) v places

section Selections

variable {client server : System} {v : List (Str × Str)} {places : List Path} {items : List Item}

theorem exists_plan (hsizes : ∀ r content, fs.fileAt r = some content → content.length < 2^64)
    (hsends : SendsAll client.toKernel fs v items)
    (hplaced : List.Forall₂ (Placed client.toKernel server.toKernel fs gs) v places)
    (hapart : places.Pairwise Apart) :
    ∃ todo, todo.map Prod.fst = items ∧ Plan client.toKernel server.toKernel fs gs v places todo := by
  induction hsends generalizing places with
  | nil =>
    cases hplaced
    exact ⟨[],rfl,by simp,by simp,by simp,.nil⟩
  | @cons x v items rest hitems _ ih =>
    cases hplaced with
    | @cons _ q _ places hx hv =>
      obtain ⟨hq,hapart⟩ := List.pairwise_cons.mp hapart
      obtain ⟨todo,rfl,hplan⟩ := ih hv hapart
      -- nothing of the rest is below this destination
      have hfar : ∀ e ∈ todo, ¬ q <+: e.2 := by
        intro e he
        obtain ⟨q',hq',hbelow⟩ := hplan.below e he
        exact not_prefix_of_incompRel (hq q' hq').symm hbelow
      unfold SendsTree at hitems
      cases hp : client.glance fs x.1 with
      | error err =>
        rw [hp] at hitems
        refine ⟨todo,by rw [hitems,List.nil_append],hplan.sendable,hplan.apart,fun e he => ?_,?_⟩
        · obtain ⟨q',hq',hbelow⟩ := hplan.below e he
          exact ⟨q',List.mem_cons_of_mem _ hq',hbelow⟩
        · refine .cons ⟨fun p t hp' => ?_,fun e he hpre => absurd hpre (hfar e he)⟩ hplan.assigned
          rw [hp] at hp'
          cases hp'
      | ok p =>
        rw [hp] at hitems
        obtain ⟨l,hl,rfl⟩ := hitems
        have hbelow : ∀ e ∈ targets fs p x.2 q l, q <+: e.2 := by
          intro e he
          obtain ⟨t,_,rfl⟩ := List.mem_map.mp he
          exact List.prefix_append q t
        refine ⟨targets fs p x.2 q l ++ todo,?_,?_,?_,?_,?_⟩
        · rw [List.map_append,targets,List.map_map]
          rfl
        · intro e he
          rcases List.mem_append.mp he with he | he
          · exact targets_sendable hsizes hx hp hl e he
          · exact hplan.sendable e he
        · rw [List.map_append,List.pairwise_append]
          refine ⟨targets_apart hl x.2 q,hplan.apart,fun r hr r' hr' => ?_⟩
          obtain ⟨e,he,rfl⟩ := List.mem_map.mp hr
          obtain ⟨e',he',rfl⟩ := List.mem_map.mp hr'
          obtain ⟨t,ht⟩ := hbelow e he
          obtain ⟨q',hq',u,hu⟩ := hplan.below e' he'
          rw [← ht,← hu]
          exact (hq q' hq').below t u
        · intro e he
          rcases List.mem_append.mp he with he | he
          · exact ⟨q,List.mem_cons_self,hbelow e he⟩
          · obtain ⟨q',hq',hpre⟩ := hplan.below e he
            exact ⟨q',List.mem_cons_of_mem _ hq',hpre⟩
        · refine .cons ⟨fun p' t hp' hleaf => ?_,fun e he hpre => ?_⟩ ?_
          · obtain rfl := Except.ok.inj (hp.symm.trans hp')
            exact List.mem_append_left _ (List.mem_map_of_mem ((hl.mem t).mpr hleaf))
          · rcases List.mem_append.mp he with he | he
            · obtain ⟨t,ht,rfl⟩ := List.mem_map.mp he
              exact ⟨p,t,hp,(hl.mem t).mp ht,rfl⟩
            · exact absurd hpre (hfar e he)
          · have hrest : ∀ y q', q' ∈ places → Assigned client.toKernel fs todo y q' →
                Assigned client.toKernel fs (targets fs p x.2 q l ++ todo) y q' := by
              intro y q' hq' h
              refine ⟨fun p' t hp' hleaf => List.mem_append_right _ (h.there p' t hp' hleaf),
                fun e he hpre => ?_⟩
              rcases List.mem_append.mp he with he | he
              · exact absurd hpre (not_prefix_of_incompRel (hq q' hq') (hbelow e he))
              · exact h.only e he hpre
            have hassigned := hplan.assigned
            rw [List.forall₂_iff_get] at hassigned ⊢
            exact ⟨hassigned.1,fun i hi hi' => hrest _ _ (List.get_mem _ _) (hassigned.2 i hi hi')⟩

theorem Taken.recreated {todo : List (Item × Path)} {k : Kernel} {x : Str × Str} {q : Path}
    {gs' : FileSystem} (hlinks : fs.NoLinks) (h : Taken gs todo gs') (hfree : ¬ gs.has q)
    (hx : Assigned k fs todo x q) : Recreated k fs x.1 gs' q := by
  intro t
  have hnew : gs'.has (q ++ t) → ∃ p u, k.glance fs x.1 = .ok p ∧ fs.has (p ++ (t ++ u)) := by
    intro hhas
    rcases h.new _ hhas with hold | ⟨e,he,hpre⟩
    · exact absurd hold (FileSystem.not_has_below hfree (List.prefix_append q t))
    · obtain ⟨p,t',hp,hleaf,heq⟩ := hx.only e he ((List.prefix_append q t).trans hpre)
      rw [heq] at hpre
      obtain ⟨u,rfl⟩ := (List.prefix_append_right_inj q).mp hpre
      exact ⟨p,u,hp,hleaf.1⟩
  unfold sourceAt
  cases hp : k.glance fs x.1 with
  | error e =>
    have hnone : gs'.node (q ++ t) = none := FileSystem.node_of_not_has fun hhas => by
      obtain ⟨p,_,hp',_⟩ := hnew hhas
      rw [hp] at hp'
      cases hp'
    rw [hnone]
    trivial
  | ok p =>
    cases hn : fs.node (p ++ t) with
    | none =>
      have hnone : gs'.node (q ++ t) = none := FileSystem.node_of_not_has fun hhas => by
        obtain ⟨p',u,hp',hhas'⟩ := hnew hhas
        obtain rfl := Except.ok.inj (hp.symm.trans hp')
        have hpre : p ++ t <+: p ++ (t ++ u) := ⟨u,by simp⟩
        obtain ⟨n,hn'⟩ := FileSystem.has_iff.mp (FileSystem.has_of_above hhas' hpre)
        rw [hn] at hn'
        simp at hn'
      simp only [hn,hnone]
      trivial
    | some n =>
      have hhas : fs.has (p ++ t) := FileSystem.has_iff.mpr ⟨n,hn⟩
      cases n with
      | link target => exact absurd hn (hlinks _ target)
      | file content mode =>
        have hfile : fs.fileAt (p ++ t) = some content := by rw [FileSystem.fileAt,hn]
        have hmem := hx.there p t hp (FileSystem.leaf_of_fileAt hfile)
        have htaken := h.file _ hmem content hfile
        unfold FileSystem.fileAt at htaken
        split at htaken
        · rename_i content' mode' hnode
          simp only [hn,hnode]
          exact (Option.some.inj htaken).symm
        · simp at htaken
      | dir mode =>
        -- a leaf below, or the directory itself when it is empty
        obtain ⟨u,hleaf⟩ := FileSystem.exists_leaf hhas
        rw [List.append_assoc] at hleaf
        have hmem := hx.there p (t ++ u) hp hleaf
        have hdir : gs'.isDir (q ++ t) := by
          by_cases hu : u = []
          · subst hu
            rw [List.append_nil] at hmem
            exact h.dir _ hmem (by simp [itemAt,FileSystem.fileAt,hn])
          · refine FileSystem.isDir_of_above (h.has hmem) ⟨u,by simp⟩ ?_
            simpa using hu
        obtain ⟨mode',hnode⟩ := FileSystem.isDir_iff.mp hdir
        simp only [hn,hnode]
        trivial

end Selections

theorem bytes_ne_nil (item : Item) : item.bytes ≠ [] := by
  obtain ⟨path,content⟩ := item
  cases content with
  | none => simp [Item.bytes,dirItem]
  | some bytes => simp [Item.bytes,fileHeader]

theorem wp_downloadRemoteItems {server : System} {todo : List (Item × Path)} (hfair : server.Fair)
    (hperm : ∀ p c m, server.permits p c m = true)
    (hitems : ∀ e ∈ todo, Sendable server.toKernel gs e)
    (hapart : (todo.map Prod.snd).Pairwise Apart) {cl : Bool} {rest : Str} {w : Transfer}
    {f : Disk × Nat} (hf : f.1.fs = gs)
    (h : Listening f w (uploadStream (todo.map Prod.fst) ++ rest)) :
    wp (downloadRemoteItems server cl) (fun _ w' => ∃ f', Listening f' w' rest ∧
      Taken gs todo f'.1.fs) (fun _ _ => False) w := by
  have hnumber : ∀ n, Parses (Listening f) networkDesc.readU64 (littleEndian 8 n)
      (fromLittleEndian (littleEndian 8 n)) := fun n =>
    (network_reads.bytes (length_littleEndian 8 n)).map fromLittleEndian
  simp only [uploadStream,List.append_assoc] at h
  rw [downloadRemoteItems]
  refine (hnumber _).before h fun w₁ h₁ => (hnumber _).before h₁ fun w₂ h₂ =>
    (parses_tell cl _).before h₂ fun w₃ h₃ => (parses_tell cl _).before h₃ fun w₄ h₄ => ?_
  rw [wp_bind,wp_get]
  have hbytes : (todo.map Prod.fst).flatMap Item.bytes = todo.flatMap fun e => e.1.bytes := by
    rw [List.flatMap_map]
  rw [hbytes] at h₄
  have hturns : todo.length < w₄.rcl.inp.length + 1 := by
    have hle := length_le_flatMap (l := todo) (f := fun e => e.1.bytes) fun e _ => bytes_ne_nil e.1
    obtain ⟨out,hrcl⟩ := h₄.network
    have hinp : w₄.rcl.inp = (todo.flatMap fun e => e.1.bytes) ++ ([0xFF] ++ rest) := by
      rw [hrcl]
      rfl
    rw [hinp,List.length_append]
    omega
  rw [wp_bind]
  have hnothing : ∀ e ∈ todo, ∀ e' ∈ ([] : List (Item × Path)), Apart e.2 e'.2 := by simp
  refine wp_mono (wp_downloadItems hfair hperm hitems hapart hnothing hturns
    (by rw [hf]; exact taken_nil gs) h₄) (fun _ w₅ h₅ => ?_) fun _ _ h => h
  obtain ⟨f₅,h₅,htaken⟩ := h₅
  rw [List.append_nil] at htaken
  refine wp_mono (parses_tell cl _ w₅ rest h₅) (fun _ w₆ h₆ => ?_) fun _ _ h => h
  refine ⟨f₅,h₆.2,htaken.le,fun r hr => ?_,fun e he => ?_,fun e he => ?_⟩
  · rcases htaken.new r hr with hold | ⟨e,he,hpre⟩
    · exact .inl hold
    · exact .inr ⟨e,List.mem_reverse.mp he,hpre⟩
  · exact htaken.file e (List.mem_reverse.mpr he)
  · exact htaken.dir e (List.mem_reverse.mpr he)

/-- What the client writes for a selection, after its request byte, the other party takes to its
last byte, and has then at each destination the tree of the source. -/
theorem upload_recreates_trees {client server : System} (hread : Readable client fs)
    (hsizes : ∀ r content, fs.fileAt r = some content → content.length < 2^64)
    (hfair : server.Fair) (hperm : ∀ p c m, server.permits p c m = true) {v : List (Str × Str)}
    (hlen : ∀ x ∈ v, x.1 ≠ [] ∧ x.1.length < 65536 ∧ x.2.length < 65536)
    (hlisted : ∀ x ∈ v, Listed client.toKernel fs x.1) {places : List Path}
    (hplaced : List.Forall₂ (Placed client.toKernel server.toKernel fs gs) v places)
    (hapart : places.Pairwise Apart) {u : Transfer} (hu : Requested fs v u) :
    ∃ items u', client_upload client u = .ok () u' ∧ SendsAll client.toKernel fs v items ∧
      u'.rcl.bytes = ACTION_UPLOAD :: uploadStream items ∧
      ∀ (cl : Bool) (rest : Str) (w : Transfer), w.disk.fs = gs →
        Listening (w.disk,w.offset) w (uploadStream items ++ rest) →
        ∃ w', downloadRemoteItems server cl w = .ok () w' ∧
          Listening (w'.disk,w'.offset) w' rest ∧
          List.Forall₂ (fun x q => Recreated client.toKernel fs x.1 w'.disk.fs q) v places := by
  obtain ⟨_,u',hrun,items,hitems,hbytes⟩ := ok_of_wp (wp_client_upload hread hlen hlisted hu)
  obtain ⟨todo,rfl,hplan⟩ := exists_plan hsizes hitems hplaced hapart
  refine ⟨_,u',hrun,hitems,hbytes,fun cl rest w hw h => ?_⟩
  obtain ⟨_,w',hdown,f',h',htaken⟩ :=
    ok_of_wp (@wp_downloadRemoteItems gs server todo hfair hperm hplan.sendable hplan.apart cl rest w
      _ hw h)
  obtain rfl := h'.file
  refine ⟨w',hdown,h',?_⟩
  have hassigned := hplan.assigned
  rw [List.forall₂_iff_get] at hassigned hplaced ⊢
  exact ⟨hplaced.1,fun i hi hi' => htaken.recreated hread.noLinks (hplaced.2 i hi hi').leads.free
    (hassigned.2 i hi hi')⟩

def smallTree : FileSystem :=
  .ofEntries [([],.dir 0o755),([text ['a']],.dir 0o755),([text ['a'],text ['e']],.dir 0o755),
    ([text ['a'],text ['x']],.file (text ['y']) 0o644)] (by decide)

theorem emptyHome_wellFormed :
    FileSystem.WellFormed [([],.dir 0o755),([text ['d']],.dir 0o755)] := by decide

def emptyHome : FileSystem := .ofEntries _ emptyHome_wellFormed

/-- The client is asked to upload `src` to `dest`. -/
def asked (src dest : Str) : Transfer :=
  ⟨⟨smallTree,[],0,0⟩,0,⟨pathPairsBytes [(src,dest)],[],none,false⟩,⟨[],[],none,false⟩⟩

theorem node_smallTree {p : Path} {n : Node} (h : smallTree.node p = some n) :
    p = [] ∧ n = .dir 0o755 ∨ p = [text ['a']] ∧ n = .dir 0o755 ∨
      p = [text ['a'],text ['e']] ∧ n = .dir 0o755 ∨
      p = [text ['a'],text ['x']] ∧ n = .file (text ['y']) 0o644 := by
  have hmem : p ∈ smallTree.paths := (smallTree.mem_paths p).mpr (by rw [h]; rfl)
  have hpaths : smallTree.paths = [[],[text ['a']],[text ['a'],text ['e']],
    [text ['a'],text ['x']]] := by decide +kernel
  rw [hpaths] at hmem
  simp only [List.mem_cons,List.not_mem_nil,or_false] at hmem
  have hnode : ∀ {n'}, smallTree.node p = some n' → n = n' := fun h' => by
    rw [h] at h'
    exact Option.some.inj h'
  rcases hmem with rfl | rfl | rfl | rfl
  · exact .inl ⟨rfl,hnode (by decide +kernel)⟩
  · exact .inr (.inl ⟨rfl,hnode (by decide +kernel)⟩)
  · exact .inr (.inr (.inl ⟨rfl,hnode (by decide +kernel)⟩))
  · exact .inr (.inr (.inr ⟨rfl,hnode (by decide +kernel)⟩))

theorem upload_recreates_smallTree :
    ∃ items u', client_upload .calm (asked (text ['/','a']) (text ['/','d','/','n'])) = .ok () u' ∧
      SendsAll System.calm.toKernel smallTree [(text ['/','a'],text ['/','d','/','n'])] items ∧
      u'.rcl.bytes = ACTION_UPLOAD :: uploadStream items ∧
      ∀ (cl : Bool) (rest : Str) (w : Transfer), w.disk.fs = emptyHome →
        Listening (w.disk,w.offset) w (uploadStream items ++ rest) →
        ∃ w', downloadRemoteItems .calm cl w = .ok () w' ∧
          Listening (w'.disk,w'.offset) w' rest ∧
          List.Forall₂ (fun x q => Recreated System.calm.toKernel smallTree x.1 w'.disk.fs q)
            [(text ['/','a'],text ['/','d','/','n'])] [[text ['d'],text ['n']]] := by
  have hglance : System.calm.glance smallTree (text ['/','a']) = .ok [text ['a']] := by
    decide +kernel
  have hread : Readable .calm smallTree := by
    refine ⟨System.calm_fair,fun _ _ _ => rfl,fun p t h => ?_⟩
    rcases node_smallTree h with ⟨_,hn⟩ | ⟨_,hn⟩ | ⟨_,hn⟩ | ⟨_,hn⟩ <;> simp at hn
  have hsizes : ∀ r content, smallTree.fileAt r = some content → content.length < 2^64 := by
    intro r content h
    unfold FileSystem.fileAt at h
    split at h
    · rename_i content' mode hnode
      obtain rfl := Option.some.inj h
      rcases node_smallTree hnode with ⟨_,hn⟩ | ⟨_,hn⟩ | ⟨_,hn⟩ | ⟨_,hn⟩
      · simp at hn
      · simp at hn
      · simp at hn
      · rw [(Node.file.inj hn).1]
        decide
    · simp at h
  have hleads : FreshWay System.calm.toKernel emptyHome (text ['/','d','/','n'])
      [text ['d'],text ['n']] :=
    ⟨by decide,by decide,[text ['d']],[text ['d']],text ['n'],[],by decide +kernel,
      by decide +kernel,by decide +kernel,by decide,by decide +kernel,by decide +kernel,rfl⟩
  have hplaced : Placed System.calm.toKernel System.calm.toKernel smallTree emptyHome
      (text ['/','a'],text ['/','d','/','n']) [text ['d'],text ['n']] := by
    refine ⟨hleads,fun hend => absurd hend (by decide),fun t n h => ?_⟩
    simp only [sourceAt,hglance] at h
    rcases node_smallTree h with ⟨hp,_⟩ | ⟨hp,_⟩ | ⟨hp,_⟩ | ⟨hp,_⟩
    · simp at hp
    · obtain rfl : t = [] := by simpa using hp
      decide +kernel
    · obtain rfl : t = [text ['e']] := by simpa using hp
      decide +kernel
    · obtain rfl : t = [text ['x']] := by simpa using hp
      decide +kernel
  exact upload_recreates_trees hread hsizes System.calm_fair (fun _ _ _ => rfl)
    (by decide) (fun x hx p _ _ => by
      rw [List.mem_singleton.mp hx]
      decide) (.cons hplaced .nil) (by simp)
    ⟨rfl,⟨[],[],by rw [List.append_nil]; rfl⟩,[],rfl,rfl,rfl,rfl⟩

/-- From the root as working directory `a` is the same tree, but an empty directory is all that is
sent, and made. -/
theorem upload_relative_directory :
    sourceAt System.calm.toKernel smallTree (text ['a']) [text ['x']] =
        some (.file (text ['y']) 0o644) ∧
      wp (client_upload .calm) (fun _ u => u.rcl.bytes = ACTION_UPLOAD ::
        uploadStream [⟨text ['/','d','/','n'],none⟩]) (fun _ _ => False)
        (asked (text ['a']) (text ['/','d','/','n'])) ∧
      wp (downloadRemoteItems .calm false) (fun _ w => w.rcl.inp = [] ∧
          w.disk.fs.node [text ['d'],text ['n'],text ['x']] = none) (fun _ _ => False)
        ⟨⟨emptyHome,[],0,0⟩,0,⟨[],[],none,false⟩,
          ⟨uploadStream [⟨text ['/','d','/','n'],none⟩],[],none,false⟩⟩ := by
  decide +kernel

end RootHelper
