import RootHelper.Posix.Spelled
import RootHelper.TreeUpload

/-!
Moving items for a local client: the renames are made one after the other up to the first that fails,
each with the directories that are missing above its destination.
-/

set_option autoImplicit false

namespace RootHelper
open Posix Control

section Model

variable (sys : System)

def renamePathMakeAncestors (oldPath newPath : Str) : DiskM Int := do
  let parent := getParentDir newPath
  let ready ← (do
    match ← existsIsFileIsDir_ sys parent with
    | .none => mkpathCopyPermissionsFromNearestAncestor sys parent true
    | .file => do
      modify fun d => { d with errno := Errno.EEXIST.code }
      pure (-1)
    | .dir => pure 0)
  if ready ≠ 0 then pure (-1)
  else
    match ← sys.rename oldPath newPath with
    | .ok _ => pure 0
    | .error _ => pure (-1)

/-- A marker is written behind each rename. -/
def renameAll : List (Str × Str) → TransferM Int
  | [] => pure 0
  | (fx,fy) :: v => do
    let ret ← Transfer.withDisk (renamePathMakeAncestors sys fx fy)
    if ret < 0 then pure (-1)
    else do
      clDesc.writeAllOrExit (.u64 maxuint)
      renameAll v

/-- The pairs are read as `receivePathPairsList` reads them. -/
def moveFileOrDirectory : TransferM Unit := do
  let s ← get
  let v ← clDesc.receivePathPairsList (s.cl.inp.length+1)
  let ret ← renameAll sys v
  clDesc.writeAllOrExit (.u64 maxuint_2)
  let s ← get
  clDesc.sendBaseResponse ret s.disk.errno

end Model

/-- What `s` names goes to where `t` leads as it is spelled, unless it is that already. -/
def Renamed (k : Kernel) (fs fs' : FileSystem) (s t : Str) : Prop :=
  ∃ p b q c, k.spot fs s = .ok (.name p b) ∧ k.spot fs t = .ok (.name q c) ∧ q ++ [c] = k.spelled t ∧
    fs.has (p ++ [b]) ∧
    fs' = if p ++ [b] = q ++ [c] then fs else (Change.move (p ++ [b]) q c).apply fs

/-- Up to the last slash of `t`; nothing is made above a name alone. -/
def parentPlace (k : Kernel) (t : Str) : Path :=
  if getParentDir t = [] then [] else k.spelled (getParentDir t)

/-- With the directories that are missing there. -/
def Relocated (k : Kernel) (fs fs' : FileSystem) (s t : Str) : Prop :=
  ∃ fs₁, FileSystem.MadeAbove (parentPlace k t) fs fs₁ ∧ Renamed k fs₁ fs' s t

/-- As many renames succeed as are counted, and the one after them does not. -/
inductive MoveRun (sys : System) : Disk → List (Str × Str) → Nat → Disk → Prop
  | done (d : Disk) : MoveRun sys d [] 0 d
  | fails {d d' : Disk} {s t : Str} {v : List (Str × Str)} :
      renamePathMakeAncestors sys s t d = .ok (-1) d' →
      FileSystem.MadeAbove (parentPlace sys.toKernel t) d.fs d'.fs → MoveRun sys d ((s,t) :: v) 0 d'
  | moves {d d₁ d' : Disk} {s t : Str} {v : List (Str × Str)} {k : Nat} :
      renamePathMakeAncestors sys s t d = .ok 0 d₁ → Relocated sys.toKernel d.fs d₁.fs s t →
      MoveRun sys d₁ v k d' → MoveRun sys d ((s,t) :: v) (k+1) d'

/-- No path goes up, nothing stands at the destinations and no link above them, and none is at or
below another one. -/
structure Destinations (k : Kernel) (fs : FileSystem) (v : List (Str × Str)) : Prop where
  up : ∀ x ∈ v, dotdotName ∉ components (cstr x.2)
  awaits : ∀ x ∈ v, fs.Awaits (k.spelled x.2)
  apart : v.Pairwise fun x y => ¬ k.spelled x.2 <+: k.spelled y.2 ∧ ¬ k.spelled y.2 <+: k.spelled x.2

section Parts

variable {sys : System} {d : Disk} {E : Stop → Disk → Prop} {s t : Str}

theorem getParentDir_eq {t parent : Str} (h : getParentDir t = parent) (hne : parent ≠ []) :
    ∃ c, t = parent ++ slash :: c := by
  cases hl : lastSlash t with
  | none =>
    have hnone : getParentDir t = [] := by
      rw [getParentDir,hl]
      split <;> rfl
    exact absurd (h.symm.trans hnone) hne
  | some last =>
    obtain ⟨x,c,rfl,_,hc⟩ := lastSlash_eq_some hl
    rw [getParentDir_append hc] at h
    exact ⟨c,by rw [h]⟩

theorem wp_statNearest_quiet {n : Nat} {a : Str} (hn : a.length < n) :
    wp (statNearestAncestor sys n a) (fun _ d' => Quiet d d') E d := by
  induction n generalizing a d with
  | zero => omega
  | succ n ih =>
    rw [statNearestAncestor,wp_bind]
    refine wp_look_quiet (fun _ _ hk => System.statEffect_quiet hk) fun d₁ h₁ => ?_
    cases (sys.statEffect a d.fs).map Prod.fst with
    | ok n => exact h₁
    | error e =>
      by_cases hnil : getParentDir a = []
      · simp only [hnil,if_true]
        exact h₁
      · obtain ⟨c,hc⟩ := getParentDir_eq rfl hnil
        have hlength := congrArg List.length hc
        rw [List.length_append,List.length_cons] at hlength
        simp only [if_neg hnil]
        exact wp_mono (ih (by omega)) (fun _ _ h => trans_of Quiet h₁ h) fun _ _ h => h

theorem wp_mkpathAlong_above {parent : Str} {fs₀ : FileSystem} {mode : Nat} {l : List Str}
    (hawaits : fs₀.Awaits (sys.spelled t)) (habove : sys.spelled parent <+: sys.spelled t)
    (hl : ∀ x ∈ l, sys.spelled x <+: sys.spelled parent ∧ dotdotName ∉ components (cstr x))
    (hmade : FileSystem.MadeAbove (sys.spelled parent) fs₀ d.fs) :
    wp (mkpathAlong sys mode true l)
      (fun _ d' => FileSystem.MadeAbove (sys.spelled parent) fs₀ d'.fs) E d := by
  induction l generalizing d with
  | nil => exact hmade
  | cons x l ih =>
    obtain ⟨hx,hup⟩ := hl x List.mem_cons_self
    have hrest := fun y hy => hl y (List.mem_cons_of_mem _ hy)
    rw [mkpathAlong,wp_bind,System.mkdir]
    refine System.wp_perform (fun e => ?_) fun pc ch hk => ?_
    · dsimp only
      split
      · exact hmade
      · exact ih hrest hmade
    · obtain ⟨rfl,hspot,hfree⟩ := Kernel.makeEffect_ok hk
      obtain ⟨hdir,hproper⟩ := Kernel.spot_name hspot
      have hplace := Kernel.spot_spelled hup
        (fun r hr => FileSystem.linkless_made hawaits hmade (hr.trans (hx.trans habove))) hspot
      exact ih hrest (hmade.trans (FileSystem.madeAbove_put hdir hproper hfree (hplace ▸ hx)))

theorem wp_mkpath_above {fs₀ : FileSystem} {mode : Nat} (hawaits : fs₀.Awaits (sys.spelled t))
    (hup : dotdotName ∉ components (cstr t))
    (hmade : FileSystem.MadeAbove (parentPlace sys.toKernel t) fs₀ d.fs) :
    wp (mkpath sys (getParentDir t) mode true)
      (fun _ d' => FileSystem.MadeAbove (parentPlace sys.toKernel t) fs₀ d'.fs) E d := by
  rw [mkpath,wp_ite]
  refine ⟨fun _ => hmade,fun _ => ?_⟩
  rw [wp_ite]
  refine ⟨fun _ => hmade,fun _ => ?_⟩
  generalize hparent : getParentDir t = parent
  by_cases hne : parent = []
  · subst hne
    exact hmade
  have hplace : parentPlace sys.toKernel t = sys.spelled parent := by
    rw [parentPlace,hparent,if_neg hne]
  rw [hplace] at hmade ⊢
  obtain ⟨c,hc⟩ := getParentDir_eq hparent hne
  obtain ⟨habove,hcomps⟩ := @Kernel.spelled_above sys.toKernel t parent c hc hne
  have hup' : dotdotName ∉ components (cstr parent) := fun hmem => hup (hcomps.subset hmem)
  refine wp_mkpathAlong_above hawaits habove (fun x hx => ?_) hmade
  obtain ⟨hxne,y,hy⟩ := mem_partialPaths hx
  obtain rfl | ⟨y,e,rfl⟩ := List.eq_nil_or_concat' y
  · obtain rfl := (List.append_inj' hy rfl).1
    exact ⟨List.prefix_rfl,hup'⟩
  · rw [← List.cons_append,← List.append_assoc] at hy
    obtain ⟨hx',hcomps'⟩ := @Kernel.spelled_above sys.toKernel parent x y (List.append_inj' hy rfl).1 hxne
    exact ⟨hx',fun hmem => hup' (hcomps'.subset hmem)⟩

theorem wp_osStat_quiet {a : Str} {Q : Option Char → Disk → Prop} (h : ∀ r d', Quiet d d' → Q r d') :
    wp (osStat sys a) Q E d := by
  rw [osStat,wp_bind]
  refine wp_look_quiet (fun _ _ hk => System.lstatEffect_quiet hk) fun d₁ h₁ => ?_
  cases (sys.lstatEffect a d.fs).map Prod.fst with
  | error e => exact h none d₁ h₁
  | ok n =>
    cases n with
    | file content m => exact h _ d₁ h₁
    | dir m => exact h _ d₁ h₁
    | link target =>
      simp only [wp_map,getPermissions,wp_bind]
      refine wp_look_quiet (fun _ _ hk => System.statEffect_quiet hk) fun d₂ h₂ => ?_
      split <;> exact h _ d₂ (trans_of Quiet h₁ h₂)

theorem wp_mkpathCopy_above {fs₀ : FileSystem} (hawaits : fs₀.Awaits (sys.spelled t))
    (hup : dotdotName ∉ components (cstr t)) (hsame : d.fs = fs₀) :
    wp (mkpathCopyPermissionsFromNearestAncestor sys (getParentDir t) true)
      (fun _ d' => FileSystem.MadeAbove (parentPlace sys.toKernel t) fs₀ d'.fs) E d := by
  subst hsame
  rw [mkpathCopyPermissionsFromNearestAncestor,wp_bind]
  refine wp_osStat_quiet fun r d₁ h₁ => ?_
  cases r with
  | some letter =>
    simp only [wp_ite]
    exact ⟨fun _ => .of_eq h₁.fs_eq,fun _ => .of_eq h₁.fs_eq⟩
  | none =>
    simp only [wp_bind]
    refine wp_mono (wp_statNearest_quiet (Nat.lt_succ_self _)) (fun r d₂ h₂ => ?_) fun _ _ h => h
    have hsame : FileSystem.MadeAbove (parentPlace sys.toKernel t) d.fs d₂.fs :=
      .of_eq (trans_of Quiet h₁ h₂).fs_eq
    cases r with
    | none => exact hsame
    | some mode => exact wp_mkpath_above hawaits hup hsame

theorem wp_rename_made {fs₀ : FileSystem} (hawaits : fs₀.Awaits (sys.spelled t))
    (hup : dotdotName ∉ components (cstr t))
    (hmade : FileSystem.MadeAbove (parentPlace sys.toKernel t) fs₀ d.fs) :
    wp (sys.rename s t) (fun r d' =>
      match r with
      | .ok _ => Relocated sys.toKernel fs₀ d'.fs s t
      | .error _ => FileSystem.MadeAbove (parentPlace sys.toKernel t) fs₀ d'.fs) E d := by
  rw [System.rename]
  refine System.wp_perform (fun e => hmade) fun u ch hk => ⟨d.fs,hmade,?_⟩
  obtain ⟨p,b,q,c,hs,ht,hhas,_,hres⟩ := Kernel.renameEffect_ok hk
  have hplace := Kernel.spot_spelled hup (fun r hr => FileSystem.linkless_made hawaits hmade hr) ht
  refine ⟨p,b,q,c,hs,ht,hplace,hhas,?_⟩
  obtain ⟨heq,rfl⟩ | ⟨rfl,hcan,_⟩ := hres
  · rw [if_pos heq]
    rfl
  · have hne : p ++ [b] ≠ q ++ [c] := fun heq => hcan.2.2.2.2.1 (heq ▸ List.prefix_rfl)
    rw [if_neg hne]
    rfl

theorem wp_renamePathMakeAncestors (hawaits : d.fs.Awaits (sys.spelled t))
    (hup : dotdotName ∉ components (cstr t)) :
    wp (renamePathMakeAncestors sys s t) (fun r d' =>
      r = -1 ∧ FileSystem.MadeAbove (parentPlace sys.toKernel t) d.fs d'.fs ∨
      r = 0 ∧ Relocated sys.toKernel d.fs d'.fs s t) E d := by
  have renames : ∀ (ready : Int) (d₁ : Disk),
      FileSystem.MadeAbove (parentPlace sys.toKernel t) d.fs d₁.fs →
      wp (if ready ≠ 0 then pure (-1) else do
        match ← sys.rename s t with
        | .ok _ => pure 0
        | .error _ => pure (-1) : DiskM Int) (fun r d' =>
          r = -1 ∧ FileSystem.MadeAbove (parentPlace sys.toKernel t) d.fs d'.fs ∨
          r = 0 ∧ Relocated sys.toKernel d.fs d'.fs s t) E d₁ := by
    intro ready d₁ hmade
    rw [wp_ite]
    refine ⟨fun _ => .inl ⟨rfl,hmade⟩,fun _ => ?_⟩
    rw [wp_bind]
    refine wp_mono (wp_rename_made hawaits hup hmade) (fun r d₂ h₂ => ?_) fun _ _ h => h
    cases r with
    | ok u => exact .inr ⟨rfl,h₂⟩
    | error e => exact .inl ⟨rfl,h₂⟩
  rw [renamePathMakeAncestors,wp_bind,wp_bind]
  refine wp_existsIsFileIsDir_ fun d₁ h₁ => ?_
  cases efdAt sys.toKernel d.fs (getParentDir t) with
  | none =>
    refine wp_mono (wp_mkpathCopy_above hawaits hup h₁.fs_eq) (fun r d₂ h₂ => ?_) fun _ _ h => h
    exact renames r d₂ h₂
  | file => exact renames (-1) _ (.of_eq h₁.fs_eq)
  | dir => exact renames 0 d₁ (.of_eq h₁.fs_eq)

theorem parentPlace_above (k : Kernel) (t : Str) : parentPlace k t <+: k.spelled t := by
  unfold parentPlace
  split
  · exact List.nil_prefix
  · rename_i hne
    obtain ⟨c,hc⟩ := getParentDir_eq rfl hne
    exact (Kernel.spelled_above hc hne).1

theorem Relocated.kept {k : Kernel} {fs fs' : FileSystem} (h : Relocated k fs fs' s t)
    (hawaits : fs.Awaits (k.spelled t)) : FileSystem.Kept fs fs' := by
  obtain ⟨fs₁,hmade,p,b,q,c,_,_,hplace,_,rfl⟩ := h
  rw [← hplace] at hawaits
  split
  · exact hmade.kept
  · by_cases hcan : fs₁.CanMove (p ++ [b]) q c
    · exact hmade.kept_move hcan hawaits.free
    · rw [Change.apply,dif_neg hcan]
      exact hmade.kept

theorem Relocated.awaits {k : Kernel} {fs fs' : FileSystem} {r : Path} (h : Relocated k fs fs' s t)
    (hawaits : fs.Awaits r) (hapart : ¬ k.spelled t <+: r ∧ ¬ r <+: k.spelled t) : fs'.Awaits r := by
  obtain ⟨fs₁,hmade,p,b,q,c,_,_,hplace,_,rfl⟩ := h
  have hstill := hawaits.made hmade fun hpre => hapart.2 (hpre.trans (parentPlace_above k t))
  split
  · exact hstill
  · by_cases hcan : fs₁.CanMove (p ++ [b]) q c
    · exact hstill.moved hcan (hplace ▸ hapart.1)
    · rw [Change.apply,dif_neg hcan]
      exact hstill

theorem Destinations.head {k : Kernel} {fs : FileSystem} {v : List (Str × Str)}
    (h : Destinations k fs ((s,t) :: v)) : dotdotName ∉ components (cstr t) ∧ fs.Awaits (k.spelled t) :=
  ⟨h.up (s,t) List.mem_cons_self,h.awaits (s,t) List.mem_cons_self⟩

theorem Destinations.tail {k : Kernel} {fs fs' : FileSystem} {v : List (Str × Str)}
    (h : Destinations k fs ((s,t) :: v)) (hmoved : Relocated k fs fs' s t) : Destinations k fs' v := by
  obtain ⟨hfirst,hrest⟩ := List.pairwise_cons.mp h.apart
  refine ⟨fun x hx => h.up x (List.mem_cons_of_mem _ hx),fun x hx => ?_,hrest⟩
  exact hmoved.awaits (h.awaits x (List.mem_cons_of_mem _ hx)) (hfirst x hx)

theorem MoveRun.kept {d d' : Disk} {v : List (Str × Str)} {k : Nat} (h : MoveRun sys d v k d')
    (hdest : Destinations sys.toKernel d.fs v) : FileSystem.Kept d.fs d'.fs := by
  induction h with
  | done d => exact FileSystem.Kept.refl d.fs
  | fails _ hmade => exact hmade.kept
  | moves _ hmoved _ ih => exact (hmoved.kept hdest.head.2).trans (ih (hdest.tail hmoved))

theorem MoveRun.le {d d' : Disk} {v : List (Str × Str)} {k : Nat} (h : MoveRun sys d v k d') :
    k ≤ v.length := by
  induction h with
  | done d => exact Nat.le_refl 0
  | fails _ _ => exact Nat.zero_le _
  | moves _ _ _ ih => exact Nat.succ_le_succ ih

/-- The markers of `k` renames. -/
def moveMarkers (k : Nat) : Str := (List.replicate k (littleEndian 8 maxuint)).flatten

theorem wp_tellClient {c : Chunk} {inp cs : Str} {u : Transfer} {Q : Unit → Transfer → Prop}
    {E : Stop → Transfer → Prop} (hcl : Tells inp u.cl cs)
    (hQ : ∀ k, Tells inp k (cs ++ c.encode) → Q () { u with cl := k }) :
    wp (clDesc.writeAllOrExit c) Q E u := by
  change wp (Transfer.clPart.run (connDesc.writeAllOrExit c)) Q E u
  rw [wp_run]
  exact wp_mono (conn_writes inp c u.cl cs hcl) (fun _ k hk => hQ k hk) fun _ _ h => h.elim

theorem wp_renameAll {v : List (Str × Str)} {u : Transfer} {inp cs : Str}
    (hdest : Destinations sys.toKernel u.disk.fs v) (hcl : Tells inp u.cl cs) :
    wp (renameAll sys v) (fun ret u' => ∃ k, MoveRun sys u.disk v k u'.disk ∧
      ret = (if k = v.length then 0 else -1) ∧ Tells inp u'.cl (cs ++ moveMarkers k))
      (fun _ _ => False) u := by
  induction v generalizing u cs with
  | nil =>
    refine ⟨0,.done u.disk,rfl,?_⟩
    rwa [moveMarkers,List.replicate_zero,List.flatten_nil,List.append_nil]
  | cons x v ih =>
    obtain ⟨s,t⟩ := x
    rw [renameAll,wp_bind,Transfer.withDisk,wp_run]
    obtain ⟨r,d',hrun,hone⟩ := ok_of_wp (wp_renamePathMakeAncestors (s := s) hdest.head.2 hdest.head.1)
    refine (wp_of_ok hrun).mpr ?_
    obtain ⟨rfl,hmade⟩ | ⟨rfl,hmoved⟩ := hone
    · refine ⟨0,.fails hrun hmade,by simp,?_⟩
      rwa [moveMarkers,List.replicate_zero,List.flatten_nil,List.append_nil]
    · rw [if_neg (by decide),wp_bind]
      refine wp_tellClient hcl fun conn hconn => ?_
      refine wp_mono (@ih { u with disk := d', cl := conn } _ (hdest.tail hmoved) hconn)
        (fun ret u' hu' => ?_) fun _ _ h => h
      obtain ⟨k,hk,hret,htells⟩ := hu'
      refine ⟨k+1,.moves hrun hmoved hk,?_,?_⟩
      · simpa using hret
      · have hmark : moveMarkers (k+1) = littleEndian 8 maxuint ++ moveMarkers k := by
          rw [moveMarkers,List.replicate_succ,List.flatten_cons]
          rfl
        rw [hmark,← List.append_assoc]
        exact htells

/-- The renames are made up to the first that fails; the client is told how many they are and whether
they are all, and whatever there was is still there. -/
theorem move_until_failure {v : List (Str × Str)} {u : Transfer} {out : List Chunk} {rest : Str}
    (hwire : ∀ x ∈ v, x.1 ≠ [] ∧ x.1.length < 65536 ∧ x.2.length < 65536)
    (hcl : Hears out u.cl (pathPairsBytes v ++ rest))
    (hdest : Destinations sys.toKernel u.disk.fs v) :
    wp (moveFileOrDirectory sys) (fun _ u' => ∃ k, MoveRun sys u.disk v k u'.disk ∧
      FileSystem.Kept u.disk.fs u'.disk.fs ∧
      Tells rest u'.cl (u.cl.bytes ++ (moveMarkers k ++ littleEndian 8 maxuint_2 ++
        if k = v.length then [RESPONSE_OK] else RESPONSE_ERROR :: littleEndian 4 u'.disk.errno)))
      (fun _ _ => False) u := by
  have hreads : clDesc.toSource.Reads (fun (u' : Transfer) (bs : Str) =>
      Hears out u'.cl bs ∧ u'.disk = u.disk) := fun bs =>
    (conn_reads out bs).run (L := Transfer.clPart) fun _ _ h => h
  have hturns : v.length < u.cl.inp.length + 1 := by
    have hpairs := length_le_flatMap (l := v) (f := pairBytes) fun x _ => by simp [pairBytes,littleEndian]
    rw [hcl]
    simp only [pathPairsBytes,List.length_append]
    omega
  rw [moveFileOrDirectory,wp_bind,wp_get]
  refine (parses_pathPairs hreads hwire hturns).before ⟨hcl,rfl⟩ fun u₁ h₁ => ?_
  obtain ⟨hcl₁,hdisk₁⟩ := h₁
  have htells : Tells rest u₁.cl u.cl.bytes := by
    rw [hcl₁,hcl]
    exact ⟨rfl,rfl,rfl,rfl⟩
  rw [← hdisk₁] at hdest ⊢
  rw [wp_bind]
  refine wp_mono (wp_renameAll hdest htells) (fun ret u₂ h₂ => ?_) fun _ _ h => h
  obtain ⟨k,hrun,rfl,htells₂⟩ := h₂
  rw [wp_bind]
  refine wp_tellClient htells₂ fun conn hconn => ?_
  rw [wp_bind,wp_get]
  have hanswer : ∀ conn answer, Tells rest conn (u.cl.bytes ++ moveMarkers k ++
      (littleEndian 8 maxuint_2 ++ answer)) → answer = (if k = v.length then [RESPONSE_OK]
        else RESPONSE_ERROR :: littleEndian 4 u₂.disk.errno) →
      ∃ k, MoveRun sys u₁.disk v k u₂.disk ∧ FileSystem.Kept u₁.disk.fs u₂.disk.fs ∧
        Tells rest conn (u.cl.bytes ++ (moveMarkers k ++ littleEndian 8 maxuint_2 ++
          if k = v.length then [RESPONSE_OK] else RESPONSE_ERROR :: littleEndian 4 u₂.disk.errno)) := by
    intro conn answer hconn hres
    refine ⟨k,hrun,hrun.kept hdest,?_⟩
    rw [← hres,List.append_assoc (moveMarkers k),← List.append_assoc]
    exact hconn
  by_cases hall : k = v.length
  · rw [if_pos hall,Sink.sendBaseResponse,if_pos rfl]
    exact wp_tellClient hconn fun conn' hconn' =>
      hanswer conn' [RESPONSE_OK] (by rwa [List.append_assoc] at hconn') (if_pos hall).symm
  · rw [if_neg hall,Sink.sendBaseResponse,if_neg (by decide),wp_bind]
    refine wp_tellClient hconn fun conn₁ hconn₁ => wp_tellClient hconn₁ fun conn₂ hconn₂ => ?_
    refine hanswer conn₂ (RESPONSE_ERROR :: littleEndian 4 u₂.disk.errno) ?_ (if_neg hall).symm
    rw [List.append_assoc,List.append_assoc] at hconn₂
    exact hconn₂

end Parts

def oneToMove : FileSystem :=
  .ofEntries [([],.dir 0o755),([text ['s']],.file (text ['n']) 0o644),([text ['d']],.dir 0o755),
    ([text ['d'],text ['c']],.file (text ['o']) 0o644)] (by decide)

def asksToMove (v : List (Str × Str)) : Transfer :=
  ⟨⟨oneToMove,[],0,0⟩,0,⟨pathPairsBytes v,[],none,false⟩,⟨[],[],none,false⟩⟩

def toNewDirectory : List (Str × Str) := [(text ['/','s'],text ['/','d','/','n','/','x'])]

theorem oneToMove_linkless : oneToMove.NoLinks := FileSystem.noLinks_ofEntries (by simp)

theorem move_to_new_directory : wp (moveFileOrDirectory .calm) (fun _ u' => ∃ k,
    MoveRun .calm ⟨oneToMove,[],0,0⟩ toNewDirectory k u'.disk ∧ FileSystem.Kept oneToMove u'.disk.fs ∧
      Tells [] u'.cl ([] ++ (moveMarkers k ++ littleEndian 8 maxuint_2 ++
        if k = toNewDirectory.length then [RESPONSE_OK]
        else RESPONSE_ERROR :: littleEndian 4 u'.disk.errno)))
    (fun _ _ => False) (asksToMove toNewDirectory) := by
  have hwire : ∀ x ∈ toNewDirectory, x.1 ≠ [] ∧ x.1.length < 65536 ∧ x.2.length < 65536 := by
    decide +kernel
  have hcl : Hears [] (asksToMove toNewDirectory).cl (pathPairsBytes toNewDirectory ++ []) := by
    rw [List.append_nil]
    rfl
  have hfree : ∀ x ∈ toNewDirectory, ¬ oneToMove.has (System.calm.spelled x.2) := by
    decide +kernel
  have hdest : Destinations System.calm.toKernel oneToMove toNewDirectory :=
    ⟨by decide +kernel,fun x hx => ⟨hfree x hx,fun r _ t => oneToMove_linkless r t⟩,by decide +kernel⟩
  exact @move_until_failure .calm toNewDirectory (asksToMove toNewDirectory) [] [] hwire hcl hdest

/-- Up from a directory that is not there yet: the destination is not there either, and then it is
"/d/c". -/
def overAnother : List (Str × Str) := [(text ['/','s'],text ['/','d','/','n','/','.','.','/','c'])]

theorem move_replaces :
    System.calm.glance oneToMove (text ['/','d','/','n','/','.','.','/','c']) = .error .ENOENT ∧
      oneToMove.node [text ['d'],text ['c']] = some (.file (text ['o']) 0o644) ∧
      (final (moveFileOrDirectory .calm) (asksToMove overAnother)).cl.out =
        [.u64 maxuint,.u64 maxuint_2,.u8 RESPONSE_OK] ∧
      ∀ p ∈ (final (moveFileOrDirectory .calm) (asksToMove overAnother)).disk.fs.paths,
        (final (moveFileOrDirectory .calm) (asksToMove overAnother)).disk.fs.node p ≠
          some (.file (text ['o']) 0o644) := by
  decide +kernel

end RootHelper
