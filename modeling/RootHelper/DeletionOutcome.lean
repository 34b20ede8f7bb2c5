import RootHelper.DeletionTurns
import RootHelper.Posix.Clearing
import RootHelper.TreeHashes

/-!
What the result of a deletion says: when it may be 0 although something is left.
-/

set_option autoImplicit false

namespace RootHelper
open Posix Control

section Places

variable {k : Kernel} {f₀ fs : FileSystem} {path : Str} {l t : Path}

/-- `path` does not lead through what is below it, and everything there may be looked up. -/
structure Clears (k : Kernel) (f₀ : FileSystem) (path : Str) (l : Path) : Prop where
  leads : k.glance (f₀.cleared l) path = .ok l
  looks : ∀ p c m, l <+: p → f₀.node p = some (.dir m) → f₀.has (p ++ [c]) → k.permits p c m

theorem Clears.glance (h : Clears k f₀ path l) (hnul : NulFree path) (hthin : f₀.Thinned l fs)
    (hhas : fs.has (l ++ t)) : k.glance fs (spelled path t) = .ok (l ++ t) := by
  induction t using List.reverseRecOn with
  | nil =>
    rw [List.append_nil] at hhas ⊢
    rw [spelled,List.flatMap_nil,List.append_nil]
    exact Kernel.glance_le (hthin.cleared_le hhas) h.leads
  | append_singleton t c ih =>
    rw [← List.append_assoc] at hhas
    obtain ⟨m,hm⟩ := FileSystem.isDir_iff.mp (fs.parent _ _ hhas).1
    have habove := FileSystem.has_iff.mpr ⟨_,hm⟩
    have hfollow := Kernel.follow_of_glance (ih habove) hm (by simp)
    have hlooks : k.permits (l ++ t) c m := by
      obtain ⟨n,hn⟩ := FileSystem.has_iff.mp hhas
      exact h.looks _ c m (List.prefix_append l t) (hthin.le _ _ hm)
        (FileSystem.has_iff.mpr ⟨n,hthin.le _ _ hn⟩)
    rw [spelled_concat,Kernel.glance_child (nulFree_spelled hnul habove)
      (FileSystem.proper_of_has hhas) (.inr rfl) hfollow hm,if_pos hlooks,List.append_assoc]

theorem Clears.eq_of_glance (h : Clears k f₀ path l) (hnul : NulFree path) (hthin : f₀.Thinned l fs)
    (hhas : f₀.has (l ++ t)) {q : Path} (hq : k.glance fs (spelled path t) = .ok q) : q = l ++ t := by
  have hfirst := h.glance hnul (FileSystem.thinned_refl f₀ l) hhas
  rw [Kernel.glance_le hthin.le hq] at hfirst
  exact Except.ok.inj hfirst

theorem Clears.efdAt_none (h : Clears k f₀ path l) (hnul : NulFree path) (hthin : f₀.Thinned l fs)
    (hefd : efdAt k fs (spelled path t) = .none) : ¬ fs.has (l ++ t) := fun hhas =>
  not_has_of_efdAt hefd _ (h.glance hnul hthin hhas) hhas

end Places

/-- A place is still to come: a directory already visited stands for itself alone. -/
def Covers (T : List (Path × Bool)) (t : Path) : Prop := ∃ e ∈ T, e.1 <+: t ∧ (e.2 = true → e.1 = t)

theorem Covers.mono {T T' : List (Path × Bool)} {t : Path} (h : Covers T t) (hsub : T ⊆ T') :
    Covers T' t := by
  obtain ⟨e,he,hpre⟩ := h
  exact ⟨e,hsub he,hpre⟩

/-- All that is left is still to come, and what is below a visited directory comes before it. -/
structure Covering (fs : FileSystem) (l : Path) (T : List (Path × Bool)) : Prop where
  all : ∀ t, fs.has (l ++ t) → Covers T t
  above : ∀ A x B, T = A ++ (x,true) :: B → ∀ t, fs.has (l ++ t) → x <+: t → x = t ∨ Covers A t

section Stack

variable {fs fs' : FileSystem} {l t : Path} {visited : Bool} {T : List (Path × Bool)}

theorem Covering.mono (h : Covering fs l T) (hle : fs'.Le fs) : Covering fs' l T := by
  have hhas : ∀ q, fs'.has q → fs.has q := by
    intro q hq
    obtain ⟨n,hn⟩ := FileSystem.has_iff.mp hq
    exact FileSystem.has_iff.mpr ⟨n,hle q n hn⟩
  exact ⟨fun t ht => h.all t (hhas _ ht),fun A x B hT t ht => h.above A x B hT t (hhas _ ht)⟩

theorem covers_of_gone (hgone : ¬ fs.has (l ++ t)) {t' : Path} (hhas : fs.has (l ++ t'))
    (h : Covers ((t,visited) :: T) t') : Covers T t' := by
  obtain ⟨e,he,hpre,hflag⟩ := h
  rcases List.mem_cons.mp he with rfl | he
  · exact absurd (FileSystem.has_of_above hhas ((List.prefix_append_right_inj l).mpr hpre)) hgone
  · exact ⟨e,he,hpre,hflag⟩

theorem Covering.tail (h : Covering fs l ((t,visited) :: T)) (hgone : ¬ fs.has (l ++ t)) :
    Covering fs l T := by
  constructor
  · intro t' hhas
    exact covers_of_gone hgone hhas (h.all t' hhas)
  · intro A x B hT t' hhas hpre
    refine (h.above ((t,visited) :: A) x B (by rw [hT]; rfl) t' hhas hpre).imp_right ?_
    exact covers_of_gone hgone hhas

theorem Covering.childless (h : Covering fs l ((t,true) :: T)) : fs.children (l ++ t) = [] := by
  rw [List.eq_nil_iff_forall_not_mem]
  intro c hc
  have hhas := FileSystem.mem_children.mp hc
  rw [List.append_assoc] at hhas
  rcases h.above [] t T rfl (t ++ [c]) hhas (List.prefix_append t [c]) with heq | ⟨e,he,_⟩
  · simp at heq
  · cases he

def unvisitedChildren (t : Path) (names : List Name) : List (Path × Bool) :=
  (names.map fun c => (t ++ [c],false)).reverse

theorem mem_unvisitedChildren {names : List Name} {e : Path × Bool} :
    e ∈ unvisitedChildren t names ↔ ∃ c ∈ names, e = (t ++ [c],false) := by
  rw [unvisitedChildren,List.mem_reverse,List.mem_map]
  simp only [eq_comm]

theorem covers_unvisitedChildren {names : List Name} (hnames : names.Perm (fs.children (l ++ t))) {t' : Path}
    (hhas : fs.has (l ++ t')) (hpre : t <+: t') : t = t' ∨ Covers (unvisitedChildren t names) t' := by
  obtain ⟨u,rfl⟩ := hpre
  cases u with
  | nil => exact .inl (List.append_nil t).symm
  | cons c u =>
    have hbelow : t ++ [c] <+: t ++ c :: u := ⟨u,by simp⟩
    have hchild : fs.has (l ++ t ++ [c]) := by
      rw [List.append_assoc]
      exact FileSystem.has_of_above hhas ((List.prefix_append_right_inj l).mpr hbelow)
    have hc := hnames.mem_iff.mpr (FileSystem.mem_children.mpr hchild)
    exact .inr ⟨_,mem_unvisitedChildren.mpr ⟨c,hc,rfl⟩,hbelow,fun hflag => by cases hflag⟩

theorem Covering.push (h : Covering fs l ((t,false) :: T)) {names : List Name}
    (hnames : names.Perm (fs.children (l ++ t))) :
    Covering fs l (unvisitedChildren t names ++ (t,true) :: T) := by
  -- what was to come with the directory comes with its entries or is the directory
  have hturn : ∀ {A : List (Path × Bool)} {t' : Path}, fs.has (l ++ t') → Covers ((t,false) :: A) t' →
      Covers (unvisitedChildren t names ++ (t,true) :: A) t' := by
    intro A t' hhas hcovers
    obtain ⟨e,he,hpre,hflag⟩ := hcovers
    rcases List.mem_cons.mp he with rfl | he
    · rcases covers_unvisitedChildren hnames hhas hpre with rfl | hcovers
      · exact ⟨(t,true),by simp,List.prefix_rfl,fun _ => rfl⟩
      · exact hcovers.mono (List.subset_append_left _ _)
    · exact ⟨e,by simp [he],hpre,hflag⟩
  constructor
  · intro t' hhas
    exact hturn hhas (h.all t' hhas)
  · intro A x B hT t' hhas hpre
    have hunvisited : ∀ e ∈ unvisitedChildren t names, e.2 = false := by
      intro e he
      obtain ⟨c,_,rfl⟩ := mem_unvisitedChildren.mp he
      rfl
    rcases List.append_eq_append_iff.mp hT with ⟨A',rfl,hA'⟩ | ⟨C,hC,hT'⟩
    · cases A' with
      | nil =>
        obtain ⟨hhead,_⟩ := List.cons.inj hA'
        obtain rfl : t = x := congrArg Prod.fst hhead
        rw [List.append_nil]
        exact covers_unvisitedChildren hnames hhas hpre
      | cons e A' =>
        obtain ⟨rfl,hrest⟩ := List.cons.inj hA'
        exact (h.above ((t,false) :: A') x B (by rw [hrest]; rfl) t' hhas hpre).imp_right (hturn hhas)
    · cases C with
      | nil =>
        obtain ⟨hhead,_⟩ := List.cons.inj hT'
        obtain rfl : x = t := congrArg Prod.fst hhead
        rw [List.append_nil] at hC
        rw [← hC]
        exact covers_unvisitedChildren hnames hhas hpre
      | cons e C =>
        obtain ⟨rfl,_⟩ := List.cons.inj hT'
        have hflag := hunvisited (x,true) (by rw [hC]; simp)
        cases hflag

end Stack

/-- The paths on the stack, by their places. -/
def strings (path : Str) (T : List (Path × Bool)) : List (Str × Bool) :=
  T.map fun e => (spelled path e.1,e.2)

/-- Either some call has failed already or all that is left is still to come. -/
structure OnCourse (f₀ : FileSystem) (path : Str) (l : Path) (S : List (Str × Bool)) (ret : Int)
    (fs : FileSystem) : Prop where
  thinned : f₀.Thinned l fs
  stack : ∃ T, S = strings path T ∧ (∀ e ∈ T, f₀.has (l ++ e.1)) ∧
    (ret = -1 ∨ ret = 0 ∧ Covering fs l T)

section Course

variable {sys : System} {f₀ fs fs' : FileSystem} {path x : Str} {l : Path} {visited : Bool}
  {S S' : List (Str × Bool)} {ret ret' : Int}

theorem strings_unvisitedChildren (path : Str) (t : Path) (names : List Name) (T : List (Path × Bool)) :
    (names.map fun c => (spelled path t ++ slash :: c,false)).reverse ++ (spelled path t,true) ::
      strings path T = strings path (unvisitedChildren t names ++ (t,true) :: T) := by
  simp only [strings,unvisitedChildren,List.map_append,List.map_reverse,List.map_map,List.map_cons]
  congr 2
  refine List.map_congr_left fun c _ => ?_
  rw [Function.comp_apply,spelled_concat]

theorem OnCourse.step (h : OnCourse f₀ path l ((x,visited) :: S) ret fs)
    (hclears : Clears sys.toKernel f₀ path l) (hnul : NulFree path)
    (hstep : DeleteStep sys x visited S ret fs S' ret' fs') : OnCourse f₀ path l S' ret' fs' := by
  obtain ⟨hthin,T,hS,hplaces,hcourse⟩ := h
  cases T with
  | nil => cases hS
  | cons e T =>
    obtain ⟨t,visited'⟩ := e
    obtain ⟨hhead,rfl⟩ := List.cons.inj hS
    obtain ⟨rfl,rfl⟩ := Prod.mk.inj hhead
    have hplace : f₀.has (l ++ t) := hplaces (t,visited) List.mem_cons_self
    have hrest : ∀ e ∈ T, f₀.has (l ++ e.1) := fun e he => hplaces e (List.mem_cons_of_mem _ he)
    cases hstep with
    | gone hefd =>
      refine ⟨hthin,T,rfl,hrest,hcourse.imp_right fun hcover => ⟨hcover.1,?_⟩⟩
      exact hcover.2.tail (hclears.efdAt_none hnul hthin hefd)
    | removed hk =>
      obtain ⟨q,hq,hch,hcan,_⟩ := Kernel.glance_of_removeEffect hk
      obtain rfl := Change.erase.inj (Option.some.inj hch)
      obtain rfl := hclears.eq_of_glance hnul hthin hplace hq
      refine ⟨hthin.erase (List.prefix_append l t) hcan,T,rfl,hrest,hcourse.imp_right fun hcover =>
        ⟨hcover.1,(hcover.2.mono (erase_le fs _)).tail ?_⟩⟩
      rw [FileSystem.has,Change.node_erase hcan,if_pos rfl]
      exact Bool.false_ne_true
    | kept _ _ => exact ⟨hthin,T,rfl,hrest,.inl rfl⟩
    | left hvisited hefd hfollow hne =>
      refine ⟨hthin,T,rfl,hrest,hcourse.imp_right fun hcover => ?_⟩
      obtain ⟨p,_,hp,_,hsame⟩ := efdAt_dir hefd
      rw [hfollow] at hsame
      obtain rfl := Except.ok.inj hsame
      rw [hclears.eq_of_glance hnul hthin hplace hp] at hne
      rw [hvisited] at hcover
      exact absurd hcover.2.childless hne
    | listed hfirst hefd hfollow hperm _ =>
      obtain ⟨p,_,hp,_,hsame⟩ := efdAt_dir hefd
      rw [hfollow] at hsame
      obtain rfl := Except.ok.inj hsame
      rw [hclears.eq_of_glance hnul hthin hplace hp] at hperm
      refine ⟨hthin,_,strings_unvisitedChildren path t _ T,fun e he => ?_,
        hcourse.imp_right fun hcover => ?_⟩
      · rcases List.mem_append.mp he with he | he
        · obtain ⟨c,hc,rfl⟩ := mem_unvisitedChildren.mp he
          obtain ⟨n,hn⟩ := FileSystem.has_iff.mp (FileSystem.mem_children.mp (hperm.mem_iff.mp hc))
          rw [List.append_assoc] at hn
          exact FileSystem.has_iff.mpr ⟨n,hthin.le _ _ hn⟩
        · rcases List.mem_cons.mp he with rfl | he
          · exact hplace
          · exact hrest e he
      · rw [hfirst] at hcover
        exact ⟨hcover.1,hcover.2.push hperm⟩

theorem OnCourse.run {n : Nat} {r : Int} {d d' : Disk} (h : OnCourse f₀ path l S ret d.fs)
    (hclears : Clears sys.toKernel f₀ path l) (hnul : NulFree path)
    (hrun : deleteLoop sys n S ret d = .ok r d') : r = 0 ∧ ¬ d'.fs.has l ∨ r = -1 := by
  induction n generalizing S ret d with
  | zero => cases hrun
  | succ n ih =>
    cases S with
    | nil =>
      cases hrun
      obtain ⟨_,T,hS,_,hcourse⟩ := h
      obtain rfl : T = [] := List.map_eq_nil_iff.mp hS.symm
      refine hcourse.symm.imp_left fun hcover => ⟨hcover.1,fun hhas => ?_⟩
      obtain ⟨e,he,_⟩ := hcover.2.all [] (by rwa [List.append_nil])
      cases he
    | cons e S =>
      obtain ⟨x,visited⟩ := e
      rw [deleteLoop_succ] at hrun
      obtain ⟨s,d₁,hturn,hrest⟩ := ok_of_run_bind hrun
      exact ih (h.step hclears hnul ((wp_of_ok hturn).mp wp_deleteTurn).1) hrest

end Course

/-! ### Where something cannot be looked up -/

section Granted

variable {k : Kernel} {f₀ fs fs' : FileSystem} {path x y : Str} {l q : Path} {c : Name}

/-- What cannot be looked up is still there. -/
def Locked (k : Kernel) (f₀ : FileSystem) (l : Path) (fs : FileSystem) : Prop :=
  ∀ p c m, l <+: p → f₀.node p = some (.dir m) → f₀.has (p ++ [c]) → k.permits p c m = false →
    fs.has (p ++ [c])

/-- It has come to what `path` names when nothing was left below. -/
def Emptied (k : Kernel) (f₀ : FileSystem) (path : Str) (l : Path) : Prop :=
  ∃ fs, f₀.Thinned l fs ∧ Locked k f₀ l fs ∧ fs.children l = [] ∧ k.glance fs path = .ok l

theorem Emptied.clears (h : Emptied k f₀ path l) : Clears k f₀ path l := by
  obtain ⟨fs,hthin,hlocked,hnone,hglance⟩ := h
  refine ⟨Kernel.glance_le (hthin.le_cleared hnone) hglance,fun p c m hpre hm hhas => ?_⟩
  by_contra hno
  have hstill := hlocked p c m hpre hm hhas (by simpa using hno)
  refine FileSystem.not_has_below_childless hnone (hpre.trans (List.prefix_append p [c])) ?_ hstill
  intro heq
  have hlen := hpre.length_le
  rw [heq,List.length_append,List.length_singleton] at hlen
  omega

theorem Locked.erase (h : Locked k f₀ l fs) (hthin : f₀.Thinned l fs)
    (hk : k.removeEffect x fs = .ok ((),some (.erase q))) :
    Locked k f₀ l ((Change.erase q).apply fs) := by
  obtain ⟨p,c,hspot,hch,_,hnone⟩ := Kernel.removeEffect_ok hk
  obtain rfl := Change.erase.inj (Option.some.inj hch)
  unfold Kernel.spot at hspot
  split_ifs at hspot
  obtain ⟨⟨m,hm,hpermits⟩,_⟩ := Kernel.spotFrom_name hspot
  intro p' c' m' hpre hm' hhas hno
  have hne : p' ++ [c'] ≠ p ++ [c] := by
    intro heq
    obtain ⟨rfl,rfl⟩ : p' = p ∧ c' = c := by simpa using heq
    rw [hthin.le _ _ hm] at hm'
    cases hm'
    rw [hpermits] at hno
    cases hno
  rw [FileSystem.has,Change.node_erase ⟨by simp,hnone⟩,if_neg hne]
  exact h p' c' m' hpre hm' hhas hno

theorem spot_entry (hy : NulFree y) (hc : ProperName c)
    (hglance : k.glance fs (y ++ slash :: c) = .ok q) :
    ¬ endsWithSlash (cstr (y ++ slash :: c)) ∧
      ∃ p d, k.spot fs (y ++ slash :: c) = .ok (.name p d) ∧ q = p ++ [d] := by
  have hnul : NulFree (y ++ slash :: c) := by simpa [NulFree,slash] using ⟨hy,hc.2.2.1⟩
  have hend : ¬ endsWithSlash (cstr (y ++ slash :: c)) := by
    rw [cstr_of_nulFree hnul,endsWithSlash,List.getLast?_append_of_ne_nil _ (by simp),
      List.getLast?_cons_of_ne_nil hc.1]
    exact fun hlast => hc.2.1 (List.mem_of_getLast? hlast)
  refine ⟨hend,?_⟩
  rw [Kernel.glance,if_neg hend] at hglance
  cases hsp : k.spot fs (y ++ slash :: c) with
  | error e =>
    rw [hsp] at hglance
    cases hglance
  | ok sp =>
    rw [hsp] at hglance
    obtain rfl := Except.ok.inj hglance
    cases sp with
    | name p d => exact ⟨p,d,rfl,rfl⟩
    | self r =>
      -- the last component is no dot name
      unfold Kernel.spot Kernel.spotFrom at hsp
      rw [cstr_of_nulFree hnul,components_concat_name y hc,if_neg (by simp)] at hsp
      simp only [List.getLast?_append,List.getLast?_singleton,Option.some_or,List.dropLast_concat,bind,
        Except.bind,hc.2.2.2.1,hc.2.2.2.2,if_false] at hsp
      split at hsp
      · cases hsp
      · split at hsp
        · split_ifs at hsp
          cases hsp
        · cases hsp
        · cases hsp

theorem removeEffect_entry (hy : NulFree y) (hc : ProperName c)
    (hglance : k.glance fs (y ++ slash :: c) = .ok q) (hhas : fs.has q) (hnone : fs.children q = []) :
    ∃ ch, k.removeEffect (y ++ slash :: c) fs = .ok ((),ch) := by
  obtain ⟨hend,p,d,hspot,rfl⟩ := spot_entry hy hc hglance
  obtain ⟨n,hn⟩ := FileSystem.has_iff.mp hhas
  unfold Kernel.removeEffect
  simp only [hspot,bind,Except.bind,hn]
  cases n with
  | dir m => exact ⟨_,if_pos hnone⟩
  | file content m => exact ⟨_,if_neg hend⟩
  | link target => exact ⟨_,if_neg hend⟩

/-- A path on the stack leads to its place or nowhere. -/
structure LeadsHome (k : Kernel) (f₀ : FileSystem) (path : Str) (l t : Path) : Prop where
  nulFree : NulFree (spelled path t)
  proper : ∀ c ∈ t, ProperName c
  eq : ∀ q, k.glance f₀ (spelled path t) = .ok q → q = l ++ t

theorem LeadsHome.entry {t : Path} (h : LeadsHome k f₀ path l t) {m : Nat}
    (hfollow : k.follow f₀ (spelled path t) = .ok (l ++ t)) (hm : f₀.node (l ++ t) = some (.dir m))
    (hc : ProperName c) : LeadsHome k f₀ path l (t ++ [c]) := by
  refine ⟨?_,?_,?_⟩
  · rw [spelled_concat]
    simpa [NulFree,slash] using ⟨h.nulFree,hc.2.2.1⟩
  · intro d hd
    rcases List.mem_append.mp hd with hd | hd
    · exact h.proper d hd
    · exact List.mem_singleton.mp hd ▸ hc
  · intro q hq
    rw [spelled_concat,Kernel.glance_child h.nulFree hc (.inr rfl) hfollow hm] at hq
    split_ifs at hq
    rw [← Except.ok.inj hq,List.append_assoc]

/-- A result of 0, and what `path` names is still there; or it has come to that with nothing below. -/
structure Held (k : Kernel) (f₀ : FileSystem) (path : Str) (l : Path) (S : List (Str × Bool))
    (ret : Int) (fs : FileSystem) : Prop where
  thinned : f₀.Thinned l fs
  locked : Locked k f₀ l fs
  stack : ∃ T, S = strings path T ∧ ∀ e ∈ T, LeadsHome k f₀ path l e.1
  held : ret = 0 ∧ fs.has l ∨ Emptied k f₀ path l

section Run

variable {sys : System} {visited : Bool} {S S' : List (Str × Bool)} {ret ret' : Int} {t : Path}

theorem emptied_of_kept (hthin : f₀.Thinned l fs) (hlocked : Locked sys.toKernel f₀ l fs)
    (hleads : LeadsHome sys.toKernel f₀ path l t) (hefd : efdAt sys.toKernel fs (spelled path t) ≠ .none)
    (hfails : ∃ e, sys.removeEffect (spelled path t) fs = .error e)
    (hdir : efdAt sys.toKernel fs (spelled path t) = .dir →
      ∃ p, sys.follow fs (spelled path t) = .ok p ∧ fs.children p = []) :
    Emptied sys.toKernel f₀ path l := by
  obtain ⟨q,hq,hhas⟩ : ∃ q, sys.glance fs (spelled path t) = .ok q ∧ fs.has q := by
    cases hn : Kernel.nodeAt fs (sys.glance fs (spelled path t)) with
    | error e => exact absurd (by rw [efdAt,hn]) hefd
    | ok n =>
      obtain ⟨q,hq,hnode⟩ := Kernel.nodeAt_ok hn
      exact ⟨q,hq,FileSystem.has_iff.mpr ⟨n,hnode⟩⟩
  have hnone : fs.children q = [] := by
    by_cases hd : efdAt sys.toKernel fs (spelled path t) = .dir
    · obtain ⟨p,hp,hnone⟩ := hdir hd
      obtain ⟨p',_,hp',_,hsame⟩ := efdAt_dir hd
      rw [hp] at hsame
      rw [hq] at hp'
      rw [Except.ok.inj hp',← Except.ok.inj hsame]
      exact hnone
    · refine FileSystem.children_of_not_isDir fun hisDir => hd ?_
      obtain ⟨m,hm⟩ := FileSystem.isDir_iff.mp hisDir
      simp [efdAt,Kernel.nodeAt,hq,hm,bind,Except.bind]
  obtain rfl := hleads.eq q (Kernel.glance_le hthin.le hq)
  rcases List.eq_nil_or_concat' t with rfl | ⟨t,c,rfl⟩
  · rw [List.append_nil] at hq hnone
    rw [spelled,List.flatMap_nil,List.append_nil] at hq
    exact ⟨fs,hthin,hlocked,hnone,hq⟩
  · obtain ⟨e,hfails⟩ := hfails
    have hnul : NulFree (spelled path t) := by
      have hboth := hleads.nulFree
      rw [spelled_concat,NulFree,List.mem_append] at hboth
      exact fun hmem => hboth (.inl hmem)
    rw [spelled_concat] at hq hfails
    obtain ⟨ch,hdone⟩ := removeEffect_entry hnul (hleads.proper c (by simp)) hq hhas hnone
    rw [hdone] at hfails
    cases hfails

theorem Held.step (h : Held sys.toKernel f₀ path l ((x,visited) :: S) ret fs)
    (hgranted : ∀ t, sys.refuse t = none)
    (hstep : DeleteStep sys x visited S ret fs S' ret' fs') :
    Held sys.toKernel f₀ path l S' ret' fs' := by
  obtain ⟨hthin,hlocked,⟨T,hS,hleads⟩,hheld⟩ := h
  cases T with
  | nil => cases hS
  | cons e T =>
    obtain ⟨t,visited'⟩ := e
    obtain ⟨hhead,rfl⟩ := List.cons.inj hS
    obtain ⟨rfl,rfl⟩ := Prod.mk.inj hhead
    have htop : LeadsHome sys.toKernel f₀ path l t := hleads (t,visited) List.mem_cons_self
    have hrest : ∀ e ∈ T, LeadsHome sys.toKernel f₀ path l e.1 := fun e he =>
      hleads e (List.mem_cons_of_mem _ he)
    cases hstep with
    | gone _ => exact ⟨hthin,hlocked,⟨T,rfl,hrest⟩,hheld⟩
    | removed hk =>
      obtain ⟨q,hq,hch,hcan,_⟩ := Kernel.glance_of_removeEffect hk
      obtain rfl := Change.erase.inj (Option.some.inj hch)
      obtain rfl := htop.eq _ (Kernel.glance_le hthin.le hq)
      refine ⟨hthin.erase (List.prefix_append l t) hcan,hlocked.erase hthin hk,⟨T,rfl,hrest⟩,?_⟩
      by_cases hself : t = []
      · subst hself
        rw [List.append_nil] at hq hcan
        rw [spelled,List.flatMap_nil,List.append_nil] at hq
        exact .inr ⟨fs,hthin,hlocked,hcan.2,hq⟩
      · refine hheld.imp_left fun hzero => ⟨hzero.1,?_⟩
        rw [FileSystem.has,Change.node_erase hcan,if_neg (by simpa using hself)]
        exact hzero.2
    | kept hefd hfails =>
      obtain ⟨hfails,hdir⟩ := hfails hgranted
      exact ⟨hthin,hlocked,⟨T,rfl,hrest⟩,.inr (emptied_of_kept hthin hlocked htop hefd hfails hdir)⟩
    | left _ _ _ _ => exact ⟨hthin,hlocked,⟨T,rfl,hrest⟩,hheld⟩
    | listed _ hefd hfollow hperm _ =>
      obtain ⟨p,m,hp,hm,hsame⟩ := efdAt_dir hefd
      rw [hfollow] at hsame
      obtain rfl := Except.ok.inj hsame
      obtain rfl := htop.eq _ (Kernel.glance_le hthin.le hp)
      refine ⟨hthin,hlocked,⟨_,strings_unvisitedChildren path t _ T,fun e he => ?_⟩,hheld⟩
      rcases List.mem_append.mp he with he | he
      · obtain ⟨c,hc,rfl⟩ := mem_unvisitedChildren.mp he
        have hhas := FileSystem.mem_children.mp (hperm.mem_iff.mp hc)
        exact htop.entry (Kernel.follow_le hthin.le hfollow) (hthin.le _ _ hm)
          (FileSystem.proper_of_has hhas)
      · rcases List.mem_cons.mp he with rfl | he
        · exact htop
        · exact hrest e he

theorem Held.run {n : Nat} {r : Int} {d d' : Disk} (h : Held sys.toKernel f₀ path l S ret d.fs)
    (hgranted : ∀ t, sys.refuse t = none) (hrun : deleteLoop sys n S ret d = .ok r d') :
    r = 0 ∧ d'.fs.has l ∨ Emptied sys.toKernel f₀ path l := by
  induction n generalizing S ret d with
  | zero => cases hrun
  | succ n ih =>
    cases S with
    | nil =>
      cases hrun
      exact h.held
    | cons e S =>
      obtain ⟨x,visited⟩ := e
      rw [deleteLoop_succ] at hrun
      obtain ⟨s,d₁,hturn,hrest⟩ := ok_of_run_bind hrun
      exact ih (h.step hgranted ((wp_of_ok hturn).mp wp_deleteTurn).1) hrest

end Run

end Granted

/-- The result 0, and nothing is left at the place `path` named at first or below it; or -1. -/
def HonestResult (k : Kernel) (f₀ : FileSystem) (path : Str) (ret : Int) (fs : FileSystem) : Prop :=
  (ret = 0 ∧ ∀ l, k.unlocked.glance f₀ path = .ok l → ∀ q, l <+: q → ¬ fs.has q) ∨ ret = -1

def granting (k : Kernel) : System :=
  { k with
    refuse := fun _ => none
    order := fun _ names => names
    order_perm := fun _ _ => List.Perm.refl _
    transfer := fun _ => 0
    dirSize := fun _ => 0 }

theorem deleteLoop_gone {sys : System} {n : Nat} {path : Str} {d d' : Disk} {r : Int}
    (hefd : efdAt sys.toKernel d.fs path = .none)
    (hrun : deleteLoop sys n [(path,false)] 0 d = .ok r d') : r = 0 ∧ d'.fs = d.fs := by
  cases n with
  | zero => cases hrun
  | succ n =>
    rw [deleteLoop_succ] at hrun
    obtain ⟨s,d₁,hturn,hrest⟩ := ok_of_run_bind hrun
    have hgone : wp (deleteTurn sys path false [] 0)
        (fun s d₁ => s = ([],0) ∧ d₁.fs = d.fs) (fun _ _ => True) d := by
      unfold deleteTurn
      rw [wp_bind]
      refine wp_existsIsFileIsDir_ fun d₁ hq => ?_
      rw [hefd]
      exact ⟨rfl,hq.fs_eq⟩
    obtain ⟨rfl,hfs⟩ := (wp_of_ok hturn).mp hgone
    cases n with
    | zero => cases hrest
    | succ n =>
      cases hrest
      exact ⟨rfl,hfs⟩

theorem honest_of_clears {sys : System} {path : Str} {d d' : Disk} {r : Int} (hnul : NulFree path)
    (hclears : ∀ l, sys.unlocked.glance d.fs path = .ok l → d.fs.has l →
      Clears sys.toKernel d.fs path l)
    (hrun : genericDeleteBasicImpl sys path d = .ok r d') :
    HonestResult sys.toKernel d.fs path r d'.fs := by
  have hspelled : spelled path [] = path := by rw [spelled,List.flatMap_nil,List.append_nil]
  by_cases hthere : ∃ l, sys.unlocked.glance d.fs path = .ok l ∧ d.fs.has l
  · obtain ⟨l,hl,hhas⟩ := hthere
    have hcourse : OnCourse d.fs path l [(path,false)] 0 d.fs := by
      refine ⟨FileSystem.thinned_refl _ _,[([],false)],?_,?_,.inr ⟨rfl,?_,?_⟩⟩
      · rw [strings,List.map_cons,hspelled,List.map_nil]
      · intro e he
        obtain rfl := List.mem_singleton.mp he
        rwa [List.append_nil]
      · intro t _
        exact ⟨_,List.mem_singleton_self _,List.nil_prefix,fun hflag => by cases hflag⟩
      · intro A x B hT
        cases A with
        | nil => cases hT
        | cons e A => simp at hT
    rcases hcourse.run (hclears l hl hhas) hnul hrun with ⟨hzero,hgone⟩ | hminus
    · refine .inl ⟨hzero,fun l' hl' q hpre => ?_⟩
      rw [hl] at hl'
      obtain rfl := Except.ok.inj hl'
      exact FileSystem.not_has_below hgone hpre
    · exact .inr hminus
  · have hefd : efdAt sys.toKernel d.fs path = .none := by
      by_contra hne
      obtain ⟨q,hq,hhas⟩ := has_of_efdAt hne
      exact hthere ⟨q,Kernel.glance_unlocked hq,hhas⟩
    obtain ⟨hzero,hfs⟩ := deleteLoop_gone hefd hrun
    refine .inl ⟨hzero,fun l hl q hpre hq => hthere ⟨l,hl,?_⟩⟩
    rw [hfs] at hq
    exact FileSystem.has_of_above hq hpre

/-- For a process that may look up what it may, and a path in a file system: whatever calls are
refused the result is right, just when all that is there is found to the end. -/
theorem genericDeleteBasicImpl_honest_iff {k : Kernel} {path : Str} {d : Disk} (hnul : NulFree path) :
    (∀ sys : System, sys.toKernel = k → ∀ r d', genericDeleteBasicImpl sys path d = .ok r d' →
      HonestResult k d.fs path r d'.fs) ↔
    ∀ l, k.unlocked.glance d.fs path = .ok l → d.fs.has l → Clears k d.fs path l := by
  have hspelled : spelled path [] = path := by rw [spelled,List.flatMap_nil,List.append_nil]
  constructor
  · intro hhonest l hl hhas
    obtain ⟨r,d',hrun⟩ := @genericDeleteBasicImpl_returns (granting k) path d hnul
      (keepsListings_of_granted fun _ => rfl)
    have hheld : Held (granting k).toKernel d.fs path l [(path,false)] 0 d.fs := by
      refine ⟨FileSystem.thinned_refl _ _,fun _ _ _ _ _ hthere _ => hthere,⟨[([],false)],?_,?_⟩,
        .inl ⟨rfl,hhas⟩⟩
      · rw [strings,List.map_cons,hspelled,List.map_nil]
      · intro e he
        obtain rfl := List.mem_singleton.mp he
        refine ⟨by rwa [hspelled],by simp,fun q hq => ?_⟩
        rw [hspelled] at hq
        have hreal : k.unlocked.glance d.fs path = .ok q := Kernel.glance_unlocked hq
        rw [hl] at hreal
        rw [List.append_nil,Except.ok.inj hreal]
    rcases hheld.run (fun _ => rfl) hrun with ⟨rfl,hstays⟩ | hemptied
    · rcases hhonest (granting k) rfl 0 d' hrun with ⟨_,hnothing⟩ | hminus
      · exact absurd hstays (hnothing l hl l List.prefix_rfl)
      · cases hminus
    · exact hemptied.clears
  · rintro hclears sys rfl r d' hrun
    exact honest_of_clears hnul hclears hrun

def refusing : System := { System.calm with refuse := fun t => if t = 4 then some .EACCES else none }

theorem honestResult_refusing : ∃ d', genericDeleteBasicImpl refusing [47,100] oneEntry = .ok (-1) d' ∧
    d'.fs.has [[100],[97]] ∧ HonestResult refusing.toKernel oneEntry.fs [47,100] (-1) d'.fs := by
  have hrun : ∃ d', genericDeleteBasicImpl refusing [47,100] oneEntry = .ok (-1) d' ∧
      d'.fs.has [[100],[97]] := ⟨_,rfl,by decide +kernel⟩
  obtain ⟨d',hrun,hhas⟩ := hrun
  refine ⟨d',hrun,hhas,(genericDeleteBasicImpl_honest_iff (by decide)).mpr (fun l hl _ => ⟨?_,?_⟩) refusing
    rfl (-1) d' hrun⟩
  · have hplace : refusing.unlocked.glance oneEntry.fs [47,100] = .ok [[100]] := rfl
    rw [hplace] at hl
    obtain rfl := Except.ok.inj hl
    rfl
  · exact fun _ _ _ _ _ _ => rfl

/-- No name may be looked up in "/d", though it may be listed. -/
def searchless : System := { System.calm with permits := fun p _ _ => p ≠ [[100]] }

theorem honestResult_searchless : ∃ d', genericDeleteBasicImpl searchless [47,100] oneEntry = .ok 0 d' ∧
    d'.fs.has [[100],[97]] ∧ ¬ HonestResult searchless.toKernel oneEntry.fs [47,100] 0 d'.fs := by
  refine ⟨_,rfl,by decide +kernel,fun hhonest => ?_⟩
  rcases hhonest with ⟨_,hnothing⟩ | hminus
  · exact hnothing [[100]] rfl [[100]] List.prefix_rfl (by decide +kernel)
  · cases hminus

end RootHelper
