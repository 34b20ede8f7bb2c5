import Mathlib.Algebra.BigOperators.Ring.List
import Mathlib.Algebra.Ring.Nat
import RootHelper.Deletion
import RootHelper.Posix.Trees

/-!
The loop that deletes a tree, turn by turn: what a turn can do, and that there are not more of them than
there is fuel for, unless a directory just found to have entries is not opened again.
-/

set_option autoImplicit false

namespace RootHelper
open Posix Control

variable {sys : System}

variable (sys) in
/-- One turn of the loop, with the stack and the result after it. -/
def deleteTurn (x : Str) (visited : Bool) (S : List (Str × Bool)) (ret : Int) :
    DiskM (List (Str × Bool) × Int) := do
  match ← existsIsFileIsDir_ sys x with
  | .none => pure (S,ret)
  | .file => do
    match ← sys.remove x with
    | .ok _ => pure (S,ret)
    | .error _ => pure (S,-1)
  | .dir => do
    if (← isDirectoryEmpty sys x) ≠ 0 then do
      match ← sys.remove x with
      | .ok _ => pure (S,ret)
      | .error _ => pure (S,-1)
    else if visited then pure (S,ret)
    else do
      match ← sys.opendir x with
      | .error _ => throw .crash
      | .ok names =>
        pure ((names.map fun d_name => (x ++ slash :: d_name,false)).reverse ++ (x,true) :: S,ret)

theorem deleteLoop_succ (n : Nat) (x : Str) (visited : Bool) (S : List (Str × Bool)) (ret : Int) :
    deleteLoop sys (n+1) ((x,visited) :: S) ret =
      deleteTurn sys x visited S ret >>= fun r => deleteLoop sys n r.1 r.2 := by
  rw [deleteLoop,deleteTurn,bind_assoc]
  congr 1
  funext efd
  have removing : ∀ S : List (Str × Bool), (do
      match ← sys.remove x with
      | .ok _ => deleteLoop sys n S ret
      | .error _ => deleteLoop sys n S (-1) : DiskM Int) = (do
      match ← sys.remove x with
      | .ok _ => pure (S,ret)
      | .error _ => pure (S,-1) : DiskM (List (Str × Bool) × Int)) >>=
        fun r => deleteLoop sys n r.1 r.2 := by
    intro S
    rw [bind_assoc]
    congr 1
    funext r
    cases r <;> rfl
  cases efd with
  | none => rfl
  | file => exact removing S
  | dir =>
    simp only [bind_assoc]
    congr 1
    funext empty
    split_ifs
    · exact removing S
    · rfl
    · rw [bind_assoc]
      congr 1
      funext r
      cases r <;> rfl

/-- What can come of a turn. -/
inductive DeleteStep (sys : System) (x : Str) (visited : Bool) (S : List (Str × Bool)) (ret : Int)
    (fs : FileSystem) : List (Str × Bool) → Int → FileSystem → Prop
  | gone : efdAt sys.toKernel fs x = .none → DeleteStep sys x visited S ret fs S ret fs
  | removed {q : Path} : sys.removeEffect x fs = .ok ((),some (.erase q)) →
      DeleteStep sys x visited S ret fs S ret ((Change.erase q).apply fs)
  | kept : efdAt sys.toKernel fs x ≠ .none → ((∀ t, sys.refuse t = none) →
        (∃ e, sys.removeEffect x fs = .error e) ∧
          (efdAt sys.toKernel fs x = .dir → ∃ p, sys.follow fs x = .ok p ∧ fs.children p = [])) →
      DeleteStep sys x visited S ret fs S (-1) fs
  | left {p : Path} : visited = true → efdAt sys.toKernel fs x = .dir → sys.follow fs x = .ok p →
      fs.children p ≠ [] → DeleteStep sys x visited S ret fs S ret fs
  | listed {p : Path} {names : List Name} : visited = false → efdAt sys.toKernel fs x = .dir →
      sys.follow fs x = .ok p → names.Perm (fs.children p) → fs.children p ≠ [] →
      DeleteStep sys x visited S ret fs
        ((names.map fun c => (x ++ slash :: c,false)).reverse ++ (x,true) :: S) ret fs

/-- A directory is met for the first time and found to have entries, and the next call, which is to
list it, is refused. -/
structure LostListing (sys : System) (x : Str) (visited : Bool) (d : Disk) : Prop where
  first : visited = false
  dir : efdAt sys.toKernel d.fs x = .dir
  entries : ∃ p, sys.follow d.fs x = .ok p ∧ d.fs.children p ≠ []
  opened : sys.refuse (d.tick + 1) = none
  refused : sys.refuse (d.tick + 2) ≠ none

section Spec

variable {x : Str} {visited : Bool} {S : List (Str × Bool)} {ret : Int} {d : Disk}

theorem existsIsFileIsDir_dir (h : efdAt sys.toKernel d.fs x = .dir) :
    existsIsFileIsDir_ sys x d = .ok .dir (d.done ⟨.lstat x,none⟩) := by
  obtain ⟨p,m,hp,hnode,_⟩ := efdAt_dir h
  have heffect : sys.lstatEffect x d.fs = .ok (.dir m,none) := by
    simp [Kernel.lstatEffect,Kernel.nodeAt,hp,hnode,bind,Except.bind]
  have hlook : (sys.lstat x : DiskM _) d = .ok (.ok (.dir m)) (d.done ⟨.lstat x,none⟩) := by
    simp only [System.lstat,System.look]
    change System.settle _ (sys.lstatEffect x d.fs) d = _
    rw [heffect]
    rfl
  unfold existsIsFileIsDir_ osStat
  simp only [bind_assoc]
  rw [run_bind_ok hlook]
  rfl

theorem wp_opendir_dir {p : Path} (hp : sys.follow d.fs x = .ok p) (hdir : d.fs.isDir p)
    {Q : Except Errno (List Name) → Disk → Prop} {E : Stop → Disk → Prop}
    (hfail : ∀ e d', sys.refuse d.tick ≠ none → d'.fs = d.fs → Q (.error e) d')
    (hdone : ∀ names d', sys.refuse d.tick = none → names.Perm (d.fs.children p) → d'.fs = d.fs →
      d'.tick = d.tick + 1 → Q (.ok names) d') : wp (sys.opendir x) Q E d := by
  have hopens : sys.opendirEffect (sys.order d.tick) x d.fs =
      .ok (sys.order d.tick (d.fs.children p),none) := by
    simp [Kernel.opendirEffect,hp,hdir,bind,Except.bind]
  simp only [System.opendir,wp_bind,wp_get]
  cases hr : sys.refuse d.tick with
  | some e =>
    simp only [System.perform,wp_bind,wp_get,hr,System.wp_settle,System.settled]
    exact hfail e _ (by simp [hr]) rfl
  | none =>
    rw [System.wp_perform_granted hr,hopens]
    exact hdone _ _ hr (sys.order_perm _ _) rfl rfl

variable (visited S ret) in
theorem wp_removing {d₁ : Disk} (hfs : d₁.fs = d.fs) (hefd : efdAt sys.toKernel d.fs x ≠ .none)
    (hempty : (∀ t, sys.refuse t = none) → efdAt sys.toKernel d.fs x = .dir →
      ∃ p, sys.follow d.fs x = .ok p ∧ d.fs.children p = []) {E : Stop → Disk → Prop} :
    wp (do
      match ← sys.remove x with
      | .ok _ => pure (S,ret)
      | .error _ => pure (S,-1) : DiskM (List (Str × Bool) × Int))
      (fun r d' => DeleteStep sys x visited S ret d.fs r.1 r.2 d'.fs) E d₁ := by
  rw [wp_bind]
  cases hr : sys.refuse d₁.tick with
  | some e =>
    simp only [System.remove,System.perform,wp_bind,wp_get,hr,System.wp_settle,System.settled,wp_pure]
    have hstays : (d₁.failed (.remove x) e).fs = d.fs := hfs
    rw [hstays]
    exact .kept hefd fun hall => by simp [hall] at hr
  | none =>
    rw [System.remove,System.wp_perform_granted hr,hfs]
    cases hk : sys.removeEffect x d.fs with
    | error e =>
      have hstays : (d₁.failed (.remove x) e).fs = d.fs := hfs
      simp only [System.settled,wp_pure,hstays]
      exact .kept hefd fun hall => ⟨⟨e,hk⟩,hempty hall⟩
    | ok r =>
      obtain ⟨u,ch⟩ := r
      obtain ⟨q,_,rfl,_,_⟩ := Kernel.glance_of_removeEffect hk
      have hgone : (d₁.done ⟨.remove x,some (.erase q)⟩).fs = (Change.erase q).apply d.fs :=
        congrArg (Change.erase q).apply hfs
      simp only [System.settled,wp_pure,hgone]
      exact .removed hk

theorem wp_deleteTurn : wp (deleteTurn sys x visited S ret)
    (fun r d' => DeleteStep sys x visited S ret d.fs r.1 r.2 d'.fs ∧ ¬ LostListing sys x visited d)
    (fun e _ => e = .crash ∧ LostListing sys x visited d) d := by
  unfold deleteTurn
  rw [wp_bind]
  cases hefd : efdAt sys.toKernel d.fs x with
  | none =>
    refine wp_existsIsFileIsDir_ fun d₁ hq => ?_
    rw [hefd]
    simp only [wp_pure,hq.fs_eq]
    refine ⟨.gone hefd,fun hlost => ?_⟩
    have hdir := hlost.dir
    rw [hefd] at hdir
    cases hdir
  | file =>
    refine wp_existsIsFileIsDir_ fun d₁ hq => ?_
    rw [hefd]
    refine wp_mono (wp_removing visited S ret hq.fs_eq (by simp [hefd]) fun _ hdir => ?_)
      (fun r d' hstep => ⟨hstep,fun hlost => ?_⟩) fun _ _ h => h
    · rw [hefd] at hdir
      cases hdir
    · have hdir := hlost.dir
      rw [hefd] at hdir
      cases hdir
  | dir =>
    obtain ⟨p,m,_,hnode,hp⟩ := efdAt_dir hefd
    have hdir : d.fs.isDir p := FileSystem.isDir_iff.mpr ⟨m,hnode⟩
    have hthere : efdAt sys.toKernel d.fs x ≠ .none := by
      rw [hefd]
      decide
    rw [wp_of_ok (existsIsFileIsDir_dir hefd)]
    simp only [isDirectoryEmpty,bind_assoc]
    rw [wp_bind]
    refine wp_opendir_dir (d := d.done ⟨.lstat x,none⟩) hp hdir ?_ ?_
    · intro e d₁ href hfs
      have href : sys.refuse (d.tick + 1) ≠ none := href
      have hfs : d₁.fs = d.fs := hfs
      simp only [pure_bind]
      rw [if_pos (by decide)]
      refine wp_mono (wp_removing visited S ret hfs hthere fun hall _ => ?_)
        (fun r d' hstep => ⟨hstep,fun hlost => href hlost.opened⟩) fun _ _ h => h
      exact absurd (hall _) href
    · intro names d₁ hgrant hperm hfs htick
      have hgrant : sys.refuse (d.tick + 1) = none := hgrant
      have hfs : d₁.fs = d.fs := hfs
      have hperm : names.Perm (d.fs.children p) := hperm
      simp only [pure_bind]
      by_cases hnone : names = []
      · have hchildren : d.fs.children p = [] := by
          rw [hnone] at hperm
          exact hperm.nil_eq.symm
        rw [if_pos hnone,if_pos (by decide)]
        refine wp_mono (wp_removing visited S ret hfs hthere fun _ _ => ⟨p,hp,hchildren⟩)
          (fun r d' hstep => ⟨hstep,fun hlost => ?_⟩) fun _ _ h => h
        obtain ⟨p',hp',hne⟩ := hlost.entries
        rw [hp] at hp'
        exact hne (Except.ok.inj hp' ▸ hchildren)
      · have hchildren : d.fs.children p ≠ [] := fun h => hnone (by rw [h] at hperm; exact hperm.eq_nil)
        rw [if_neg hnone,if_neg (by decide)]
        cases visited with
        | true =>
          simp only [if_true,wp_pure,hfs]
          exact ⟨.left rfl hefd hp hchildren,fun hlost => by cases hlost.first⟩
        | false =>
          rw [if_neg Bool.false_ne_true,wp_bind]
          have hagain : d₁.tick = d.tick + 2 := htick
          refine wp_opendir_dir (hfs ▸ hp) (hfs ▸ hdir) ?_ ?_
          · intro e d₂ href _
            rw [hagain] at href
            exact ⟨rfl,rfl,hefd,⟨p,hp,hchildren⟩,hgrant,href⟩
          · intro names' d₂ hgrant' hperm' hfs' _
            rw [hfs] at hperm' hfs'
            rw [hagain] at hgrant'
            simp only [wp_pure,hfs']
            exact ⟨.listed rfl hefd hp hperm' hchildren,fun hlost => hlost.refused hgrant'⟩

end Spec

section Cost

variable {k : Kernel} {fs fs' : FileSystem} {x : Str} {visited : Bool} {S S' : List (Str × Bool)}
  {ret ret' : Int}

/-- As many turns as a path not visited yet takes at most. -/
def turnsFor (k : Kernel) (fs : FileSystem) (x : Str) : Nat :=
  match k.glance fs x with
  | .ok q => max 1 (2*fs.size q)
  | .error _ => 1

def turnsLeft (k : Kernel) (fs : FileSystem) (S : List (Str × Bool)) : Nat :=
  (S.map fun e => if e.2 then 1 else turnsFor k fs e.1).sum

theorem turnsFor_pos (k : Kernel) (fs : FileSystem) (x : Str) : 0 < turnsFor k fs x := by
  unfold turnsFor
  split <;> omega

theorem size_le_of_le (hle : fs'.Le fs) (q : Path) : fs'.size q ≤ fs.size q := by
  have hcount : ∀ fs : FileSystem, fs.size q = (fs.places q).length := by
    intro fs
    rw [FileSystem.size,FileSystem.count,countBelow,FileSystem.places,← List.countP_eq_length_filter]
    exact List.countP_congr fun _ _ => by simp
  rw [hcount,hcount]
  refine (List.subperm_of_subset (FileSystem.nodup_places fs' q) fun r hr => ?_).length_le
  obtain ⟨hpre,hhas⟩ := FileSystem.mem_places.mp hr
  obtain ⟨n,hn⟩ := FileSystem.has_iff.mp hhas
  exact FileSystem.mem_places.mpr ⟨hpre,FileSystem.has_iff.mpr ⟨n,hle r n hn⟩⟩

theorem turnsFor_le (hle : fs'.Le fs) (x : Str) : turnsFor k fs' x ≤ turnsFor k fs x := by
  have hpos := turnsFor_pos k fs x
  cases hg : k.glance fs' x with
  | error e =>
    rw [turnsFor,hg]
    exact hpos
  | ok q =>
    have hsize := size_le_of_le hle q
    rw [turnsFor,turnsFor,hg,Kernel.glance_le hle hg]
    simp only
    omega

theorem turnsLeft_le (hle : fs'.Le fs) (S : List (Str × Bool)) :
    turnsLeft k fs' S ≤ turnsLeft k fs S := by
  refine List.sum_le_sum fun e _ => ?_
  split_ifs
  · exact Nat.le_refl 1
  · exact turnsFor_le hle e.1

theorem turnsFor_dir {p : Path} {m : Nat} {names : List Name} (hnul : NulFree x)
    (hp : k.glance fs x = .ok p) (hfollow : k.follow fs x = .ok p) (hnode : fs.node p = some (.dir m))
    (hnames : names.Perm (fs.children p)) :
    turnsLeft k fs (names.map fun c => (x ++ slash :: c,false)).reverse + 2 ≤ turnsFor k fs x := by
  have hchild : ∀ c ∈ names, turnsFor k fs (x ++ slash :: c) ≤ 2*fs.size (p ++ [c]) := by
    intro c hc
    have hhas := FileSystem.mem_children.mp (hnames.mem_iff.mp hc)
    have hpos := FileSystem.size_pos hhas
    have hglance := Kernel.glance_child hnul (FileSystem.proper_of_has hhas) (.inr rfl) hfollow hnode
    rw [turnsFor,hglance]
    split_ifs <;> simp only <;> omega
  have hhas : fs.has p := FileSystem.has_iff.mpr ⟨_,hnode⟩
  have hsize := FileSystem.size_children hhas hnames
  have hsum : turnsLeft k fs (names.map fun c => (x ++ slash :: c,false)).reverse ≤
      (names.map fun c => 2*fs.size (p ++ [c])).sum := by
    rw [turnsLeft,List.map_reverse,List.sum_reverse,List.map_map]
    exact List.sum_le_sum hchild
  rw [List.sum_map_mul_left] at hsum
  rw [turnsFor,hp]
  simp only
  omega

theorem turnsLeft_lt (hstep : DeleteStep sys x visited S ret fs S' ret' fs')
    (hnul : ∀ e ∈ (x,visited) :: S, NulFree e.1) : (∀ e ∈ S', NulFree e.1) ∧
      turnsLeft sys.toKernel fs' S' < turnsLeft sys.toKernel fs ((x,visited) :: S) := by
  have hrest : ∀ e ∈ S, NulFree e.1 := fun e he => hnul e (List.mem_cons_of_mem _ he)
  have hx : NulFree x := hnul (x,visited) List.mem_cons_self
  have hless : turnsLeft sys.toKernel fs S < turnsLeft sys.toKernel fs ((x,visited) :: S) := by
    have hpos := turnsFor_pos sys.toKernel fs x
    simp only [turnsLeft,List.map_cons,List.sum_cons]
    split <;> omega
  cases hstep with
  | gone _ => exact ⟨hrest,hless⟩
  | removed hk =>
    obtain ⟨q,_,_,_,_⟩ := Kernel.glance_of_removeEffect hk
    exact ⟨hrest,(turnsLeft_le (erase_le fs _) S).trans_lt hless⟩
  | kept _ _ => exact ⟨hrest,hless⟩
  | left _ _ _ _ => exact ⟨hrest,hless⟩
  | listed hfirst hefd hfollow hperm hne =>
    obtain ⟨p,m,hp,hnode,hsame⟩ := efdAt_dir hefd
    rw [hfollow] at hsame
    obtain rfl := Except.ok.inj hsame
    constructor
    · intro e he
      simp only [List.mem_append,List.mem_reverse,List.mem_map,List.mem_cons] at he
      rcases he with ⟨c,hc,rfl⟩ | rfl | he
      · have hproper := FileSystem.proper_of_has (FileSystem.mem_children.mp (hperm.mem_iff.mp hc))
        simpa [NulFree,slash] using ⟨hx,hproper.2.2.1⟩
      · exact hx
      · exact hrest e he
    · have hdir := turnsFor_dir hx hp hfollow hnode hperm
      rw [hfirst]
      simp only [turnsLeft,List.map_append,List.sum_append,List.map_cons,List.sum_cons] at hdir ⊢
      simp only [if_true,Bool.false_eq_true,if_false]
      omega

end Cost

structure DeleteState where
  S : List (Str × Bool)
  ret : Int
  disk : Disk

variable (sys) in
/-- From one state of the loop to the next. -/
def Turned (s t : DeleteState) : Prop := ∃ x visited S, s.S = (x,visited) :: S ∧
  deleteTurn sys x visited S s.ret s.disk = .ok (t.S,t.ret) t.disk

variable (sys) in
/-- The next turn does not get the listing it goes on to read. -/
def Loses (s : DeleteState) : Prop := ∃ x visited S, s.S = (x,visited) :: S ∧
  LostListing sys x visited s.disk

variable (sys) in
/-- No turn of a deletion of `path` loses a listing. -/
def KeepsListings (path : Str) (d : Disk) : Prop :=
  ∀ s, Relation.ReflTransGen (Turned sys) ⟨[(path,false)],0,d⟩ s → ¬ Loses sys s

section Runs

variable {n : Nat} {S : List (Str × Bool)} {ret r : Int} {d d' : Disk}

theorem not_loses_of_ok (h : deleteLoop sys n S ret d = .ok r d') {s : DeleteState}
    (hs : Relation.ReflTransGen (Turned sys) ⟨S,ret,d⟩ s) : ¬ Loses sys s := by
  induction n generalizing S ret d with
  | zero => cases h
  | succ n ih =>
    cases S with
    | nil =>
      rcases Relation.ReflTransGen.cases_head hs with rfl | ⟨t,ht,_⟩
      · rintro ⟨x,visited,S,hS,_⟩
        cases hS
      · obtain ⟨x,visited,S,hS,_⟩ := ht
        cases hS
    | cons e S =>
      obtain ⟨x,visited⟩ := e
      rw [deleteLoop_succ] at h
      obtain ⟨t,d₁,hturn,hrest⟩ := ok_of_run_bind h
      have hkeeps := ((wp_of_ok hturn).mp wp_deleteTurn).2
      rcases Relation.ReflTransGen.cases_head hs with rfl | ⟨u,hu,hus⟩
      · rintro ⟨x',visited',S',hS,hlost⟩
        cases hS
        exact hkeeps hlost
      · obtain ⟨x',visited',S',hS,hturn'⟩ := hu
        cases hS
        rw [hturn] at hturn'
        obtain ⟨uS,uret,udisk⟩ := u
        cases hturn'
        exact ih hrest hus

theorem deleteLoop_returns (hfuel : turnsLeft sys.toKernel d.fs S < n) (hnul : ∀ e ∈ S, NulFree e.1)
    (hkeeps : ∀ s, Relation.ReflTransGen (Turned sys) ⟨S,ret,d⟩ s → ¬ Loses sys s) :
    ∃ r d', deleteLoop sys n S ret d = .ok r d' := by
  induction n generalizing S ret d with
  | zero => omega
  | succ n ih =>
    cases S with
    | nil => exact ⟨ret,d,rfl⟩
    | cons e S =>
      obtain ⟨x,visited⟩ := e
      have hnot : ¬ LostListing sys x visited d := fun hlost => hkeeps _ .refl ⟨x,visited,S,rfl,hlost⟩
      have hspec := @wp_deleteTurn sys x visited S ret d
      obtain ⟨t,d₁,hturn,hstep,_⟩ := ok_of_wp (wp_mono hspec (fun _ _ h => h) fun _ _ h => hnot h.2)
      obtain ⟨hnul',hless⟩ := turnsLeft_lt hstep hnul
      obtain ⟨r,d',hrest⟩ := @ih t.1 t.2 d₁ (by omega) hnul' fun s hs =>
        hkeeps s (.head ⟨x,visited,S,rfl,hturn⟩ hs)
      refine ⟨r,d',?_⟩
      rw [deleteLoop_succ,run_bind_ok hturn]
      exact hrest

theorem wp_deleteLoop_ends (hfuel : turnsLeft sys.toKernel d.fs S < n) (hnul : ∀ e ∈ S, NulFree e.1) :
    wp (deleteLoop sys n S ret) (fun _ _ => True) (fun e _ => e = .crash) d := by
  induction n generalizing S ret d with
  | zero => omega
  | succ n ih =>
    cases S with
    | nil => trivial
    | cons e S =>
      obtain ⟨x,visited⟩ := e
      rw [deleteLoop_succ,wp_bind]
      refine wp_mono wp_deleteTurn (fun t d₁ h => ?_) fun _ _ h => h.1
      obtain ⟨hnul',hless⟩ := turnsLeft_lt h.1 hnul
      exact ih (by omega) hnul'

end Runs

/-- What a deletion of `path` may take away: what stands at `path` itself, a link there not followed,
and what is below it in the tree, which only directories lead to. -/
def TakesOnly (k : Kernel) (f₀ : FileSystem) (path : Str) : FileSystem → Change → Prop :=
  fun _ c => ∃ sp q, k.spot f₀ path = .ok sp ∧ c = .erase q ∧ sp.place <+: q

section Deletions

variable {path : Str} {d : Disk}

theorem takesOnly_of_deletes (hslash : ¬ endsWithSlash (cstr path)) {f₀ fs : FileSystem} {c : Change}
    (h : Deletes sys.toKernel f₀ path fs c) : TakesOnly sys.toKernel f₀ path fs c := by
  obtain ⟨l,q,hl,rfl,hpre⟩ := h
  rw [Kernel.glance,if_neg hslash] at hl
  cases hsp : sys.spot f₀ path with
  | error e =>
    rw [hsp] at hl
    cases hl
  | ok sp =>
    rw [hsp] at hl
    obtain rfl := Except.ok.inj hl
    exact ⟨sp,q,hsp,rfl,hpre⟩

theorem turnsLeft_lt_fuel (k : Kernel) (fs : FileSystem) (path : Str) :
    turnsLeft k fs [(path,false)] < 2*fs.paths.length + 2 := by
  have hroot : 0 < fs.paths.length :=
    List.length_pos_iff.mpr (List.ne_nil_of_mem ((fs.mem_paths []).mpr fs.has_root))
  simp only [turnsLeft,List.map_cons,List.map_nil,List.sum_cons,List.sum_nil,Bool.false_eq_true,if_false]
  unfold turnsFor
  cases k.glance fs path with
  | error e => simp only; omega
  | ok q =>
    have hle := FileSystem.size_le fs q
    simp only
    omega

theorem genericDeleteBasicImpl_returns (hnul : NulFree path) (hkeeps : KeepsListings sys path d) :
    ∃ ret d', genericDeleteBasicImpl sys path d = .ok ret d' :=
  deleteLoop_returns (turnsLeft_lt_fuel _ _ _) (by simpa using hnul) hkeeps

theorem wp_genericDeleteBasicImpl_ends (hnul : NulFree path) :
    wp (genericDeleteBasicImpl sys path) (fun _ _ => True) (fun e _ => e = .crash) d := by
  rw [genericDeleteBasicImpl,wp_bind,wp_get]
  exact wp_deleteLoop_ends (turnsLeft_lt_fuel _ _ _) (by simpa using hnul)

/-- A deletion returns, having taken away nothing but what it was given, just when none of its turns
loses a listing. -/
theorem genericDeleteBasicImpl_iff (hnul : NulFree path) (hslash : ¬ endsWithSlash path) :
    (∃ ret d', genericDeleteBasicImpl sys path d = .ok ret d' ∧
      Grown (Changes (TakesOnly sys.toKernel d.fs path)) d d') ↔ KeepsListings sys path d := by
  constructor
  · intro hgood s hs
    obtain ⟨ret,d',hrun,_⟩ := hgood
    exact not_loses_of_ok hrun hs
  · intro hkeeps
    obtain ⟨ret,d',hrun⟩ := genericDeleteBasicImpl_returns hnul hkeeps
    have hgrown := (wp_of_ok hrun).mp (@genericDeleteBasicImpl_deletes sys path d)
    refine ⟨ret,d',hrun,hgrown.mono fun fs e he => he.mono fun c hc => ?_⟩
    exact takesOnly_of_deletes (by rwa [cstr_of_nulFree hnul]) hc

theorem keepsListings_of_granted (h : ∀ t, sys.refuse t = none) : KeepsListings sys path d := by
  intro s _ hloses
  obtain ⟨x,visited,S,_,hlost⟩ := hloses
  exact hlost.refused (h _)

end Deletions

def oneEntry : Disk :=
  ⟨.ofEntries [([],.dir 0o755),([[100]],.dir 0o755),([[100],[97]],.file [] 0o644)] (by decide),[],0,0⟩

theorem genericDeleteBasicImpl_calm : ∃ ret d', genericDeleteBasicImpl System.calm [47,100] oneEntry =
      .ok ret d' ∧ Grown (Changes (TakesOnly System.calm.toKernel oneEntry.fs [47,100])) oneEntry d' :=
  (genericDeleteBasicImpl_iff (by decide) (by decide)).mpr (keepsListings_of_granted fun _ => rfl)

/-- There are no descriptors left when the directory is to be opened for the second time. -/
def exhausted : System := { System.calm with refuse := fun t => if t = 2 then some (.other 24) else none }

theorem genericDeleteBasicImpl_exhausted :
    ¬ ∃ ret d', genericDeleteBasicImpl exhausted [47,100] oneEntry = .ok ret d' ∧
      Grown (Changes (TakesOnly exhausted.toKernel oneEntry.fs [47,100])) oneEntry d' := by
  intro hgood
  obtain ⟨ret,d',hrun,_⟩ := hgood
  refine not_loses_of_ok hrun .refl ⟨[47,100],false,[],rfl,rfl,?_,⟨[[100]],?_,?_⟩,?_,?_⟩ <;> decide

end RootHelper
