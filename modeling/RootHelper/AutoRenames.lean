import RootHelper.DirectoriesAbove
import RootHelper.FreeNames
import RootHelper.Moves
import RootHelper.Posix.Making

/-!
Renaming out of a conflict. What `pathConcat` makes of an empty directory string is left open, so
that a search that comes to one shows in its outcome.
-/

set_option autoImplicit false

namespace RootHelper
open Posix Control

section Model

/-- Looking at the last byte of an empty directory string is undefined, and so is what follows. -/
def Concatenates (concat : Str → Str → Str) : Prop :=
  ∀ dir filename, dir ≠ [] → concat dir filename = pathConcat dir filename

variable (concat : Str → Str → Str) (env : CopyEnv)

def freeNameBy (destParent destName : Str) : Nat → Nat → Str → DiskM Str
  | 0, _, _ => throw .diverged
  | n+1, count, destI => do
    match ← existsIsFileIsDir_ env.toSystem destI with
    | .none => pure destI
    | _ =>
      let next := concat destParent (destName ++ toStr count)
      freeNameBy destParent destName n ((count+1) % 2^32) next

def nonExistingDestBy (destI : Str) : DiskM Str := do
  let d ← get
  freeNameBy concat env (getParentDir destI) (getFilenameFromFullPath destI) (d.fs.paths.length+2) 0
    destI

def autoRenameSrcBy (srcI destI : Str) : CopyM Unit := do
  let dest ← onDisk (nonExistingDestBy concat env destI)
  push [(srcI,dest)]

def autoRenameDestBy (srcI old_destI : Str) : CopyM Unit := do
  let destI ← onDisk (nonExistingDestBy concat env old_destI)
  match ← onDisk (env.rename old_destI destI) with
  | .error _ => unsolvableError env srcI destI
  | .ok _ => push [(srcI,old_destI)]

theorem freeNameBy_pathConcat (destParent destName : Str) (n count : Nat) (destI : Str) :
    freeNameBy pathConcat env destParent destName n count destI =
      freeName env destParent destName n count destI := by
  induction n generalizing count destI with
  | zero => rfl
  | succ n ih =>
    rw [freeNameBy,freeName]
    refine bind_congr fun kind => ?_
    cases kind with
    | none => rfl
    | _ => exact ih ..

theorem nonExistingDestBy_pathConcat (destI : Str) :
    nonExistingDestBy pathConcat env destI = nonExistingDest env destI := by
  simp only [nonExistingDestBy,nonExistingDest,freeNameBy_pathConcat]

theorem autoRenameSrcBy_pathConcat (srcI destI : Str) :
    autoRenameSrcBy pathConcat env srcI destI = autoRenameSrc env srcI destI := by
  rw [autoRenameSrcBy,autoRenameSrc,nonExistingDestBy_pathConcat]

theorem autoRenameDestBy_pathConcat (srcI old_destI : Str) :
    autoRenameDestBy pathConcat env srcI old_destI = autoRenameDest env srcI old_destI := by
  rw [autoRenameDestBy,nonExistingDestBy_pathConcat]
  rfl

end Model

/-! ### What is to hold -/

/-- A path from the root, by its names. -/
structure Spells (x : Str) (cs : List Name) : Prop where
  absolute : absolute x
  nulFree : NulFree x
  noSlash : ¬ endsWithSlash x
  components : components x = cs

/-- `dest` is next to `destI`, under its name with the first number that is free. -/
def FirstFree (k : Kernel) (fs : FileSystem) (destI dest : Str) : Prop :=
  ∃ cs c n, components destI = cs ++ [c] ∧ Spells dest (cs ++ [c ++ toStr n]) ∧
    efdAt k fs dest = .none ∧
    ∀ j < n, ∀ x, Spells x (cs ++ [c ++ toStr j]) → efdAt k fs x ≠ .none

/-- What was at `a` is at `b`, where nothing was, and no other place has changed. -/
structure MovedTo (fs fs' : FileSystem) (a b : Path) : Prop where
  free : ¬ fs.has b
  there : ∀ t, fs'.node (b ++ t) = fs.node (a ++ t)
  gone : ∀ t, fs'.node (a ++ t) = none
  others : ∀ r, ¬ a <+: r → ¬ b <+: r → fs'.node r = fs.node r

section Outcomes

variable (concat : Str → Str → Str) (env : CopyEnv) (srcI destI : Str) (s : CopyState)

/-- The source is to be copied to the name found. -/
def RenamesSrc : Prop :=
  ∃ dest d, FirstFree env.toKernel s.disk.fs destI dest ∧ d.fs = s.disk.fs ∧
    autoRenameSrcBy concat env srcI destI s = .ok () { s with disk := d, S := (srcI,dest) :: s.S }

/-- The entry goes to the name found and the pair is tried again. -/
def DestMoved (dest : Str) (d : Disk) : Prop :=
  ∃ p c n, env.spot s.disk.fs destI = .ok (.name p c) ∧
    env.spot s.disk.fs dest = .ok (.name p (c ++ toStr n)) ∧
    MovedTo s.disk.fs d.fs (p ++ [c]) (p ++ [c ++ toStr n]) ∧
    autoRenameDestBy concat env srcI destI s = .ok () { s with disk := d, S := (srcI,destI) :: s.S }

/-- The client is told of the error, and that is all. -/
def DestKept (dest : Str) (d : Disk) : Prop :=
  d.fs = s.disk.fs ∧
    autoRenameDestBy concat env srcI destI s = unsolvableError env srcI dest { s with disk := d } ∧
    wp (autoRenameDestBy concat env srcI destI) (fun _ s' => s'.disk = d ∧ s'.S = s.S)
      (fun _ s' => s'.disk = d ∧ s'.S = s.S) s

def RenamesDest : Prop :=
  ∃ dest d, FirstFree env.toKernel s.disk.fs destI dest ∧
    (DestMoved concat env srcI destI s dest d ∨ DestKept concat env srcI destI s dest d)

end Outcomes

/-- A number is free beside the path, which ends in a name and is not directly under the root. -/
structure Renameable (k : Kernel) (fs : FileSystem) (destI : Str) : Prop where
  nulFree : NulFree destI
  noSlash : ¬ endsWithSlash destI
  parent : getParentDir destI ≠ []
  free : ∃ n < 2^32, efdAt k fs (candidate destI (n+1)) = .none

section Search

variable {concat : Str → Str → Str} {env : CopyEnv} {destI : Str} {d : Disk}

/-- The paths the search looks at, its counter starting again at 0 behind the last unsigned int. -/
def attempted (concat : Str → Str → Str) (destI : Str) : Nat → Str
  | 0 => destI
  | n+1 => concat (getParentDir destI) (getFilenameFromFullPath destI ++ toStr (n % 2^32))

theorem attempted_candidate (hc : Concatenates concat) (hparent : getParentDir destI ≠ []) {n : Nat}
    (hn : n ≤ 2^32) : attempted concat destI n = candidate destI n := by
  cases n with
  | zero => rfl
  | succ n => rw [attempted,candidate,hc _ _ hparent,Nat.mod_eq_of_lt (by omega)]

theorem wp_freeNameBy {fs : FileSystem} (n i : Nat) (h : d.fs = fs) :
    wp (freeNameBy concat env (getParentDir destI) (getFilenameFromFullPath destI) n (i % 2^32)
        (attempted concat destI i))
      (fun dest d' => d'.fs = fs ∧ ∃ j, i ≤ j ∧ j < i+n ∧ dest = attempted concat destI j ∧
        efdAt env.toKernel fs dest = .none ∧
        ∀ l, i ≤ l → l < j → efdAt env.toKernel fs (attempted concat destI l) ≠ .none)
      (fun e _ => e = .diverged ∧
        ∀ l, i ≤ l → l < i+n → efdAt env.toKernel fs (attempted concat destI l) ≠ .none) d := by
  induction n generalizing i d with
  | zero => exact ⟨rfl,fun l _ _ => by omega⟩
  | succ n ih =>
    rw [freeNameBy,wp_bind]
    refine wp_existsIsFileIsDir_ fun d₁ h₁ => ?_
    have hsame := h₁.fs_eq.trans h
    rw [h]
    have hnext : efdAt env.toKernel fs (attempted concat destI i) ≠ .none →
        wp (freeNameBy concat env (getParentDir destI) (getFilenameFromFullPath destI) n
            ((i % 2^32 + 1) % 2^32)
            (concat (getParentDir destI) (getFilenameFromFullPath destI ++ toStr (i % 2^32))))
          (fun dest d' => d'.fs = fs ∧ ∃ j, i ≤ j ∧ j < i+(n+1) ∧ dest = attempted concat destI j ∧
            efdAt env.toKernel fs dest = .none ∧
            ∀ l, i ≤ l → l < j → efdAt env.toKernel fs (attempted concat destI l) ≠ .none)
          (fun e _ => e = .diverged ∧
            ∀ l, i ≤ l → l < i+(n+1) → efdAt env.toKernel fs (attempted concat destI l) ≠ .none)
          d₁ := by
      intro htaken
      have hcount : (i % 2^32 + 1) % 2^32 = (i+1) % 2^32 := by omega
      have hbehind : ∀ l, i ≤ l → l ≠ i → i+1 ≤ l := fun l h hne => by omega
      rw [hcount]
      refine wp_mono (ih (i+1) hsame) (fun dest d' hd => ?_) fun e d' he => ?_
      · obtain ⟨hfs,j,hle,hlt,hdest,hfree,hall⟩ := hd
        refine ⟨hfs,j,by omega,by omega,hdest,hfree,fun l hl hlj => ?_⟩
        by_cases hli : l = i
        · rwa [hli]
        · exact hall l (hbehind l hl hli) hlj
      · refine ⟨he.1,fun l hl hlj => ?_⟩
        by_cases hli : l = i
        · rwa [hli]
        · exact he.2 l (hbehind l hl hli) (by omega)
    cases hefd : efdAt env.toKernel fs (attempted concat destI i) with
    | none => exact ⟨hsame,i,Nat.le_refl i,by omega,rfl,hefd,fun l _ _ => by omega⟩
    | file => exact hnext (by simp [hefd])
    | dir => exact hnext (by simp [hefd])

theorem wp_nonExistingDestBy :
    wp (nonExistingDestBy concat env destI)
      (fun dest d' => d'.fs = d.fs ∧ ∃ j, dest = attempted concat destI j ∧
        efdAt env.toKernel d.fs dest = .none ∧
        ∀ l < j, efdAt env.toKernel d.fs (attempted concat destI l) ≠ .none)
      (fun e _ => e = .diverged ∧ ∀ l < d.fs.paths.length+2,
        efdAt env.toKernel d.fs (attempted concat destI l) ≠ .none) d := by
  rw [nonExistingDestBy,wp_bind,wp_get]
  refine wp_mono (wp_freeNameBy (d.fs.paths.length+2) 0 rfl) (fun dest d' hd => ?_) fun e d' he => ?_
  · obtain ⟨hfs,j,_,_,hdest,hfree,hall⟩ := hd
    exact ⟨hfs,j,hdest,hfree,fun l hl => hall l (Nat.zero_le l) hl⟩
  · exact ⟨he.1,fun l hl => he.2 l (Nat.zero_le l) (by omega)⟩

theorem nonExistingDestBy_finds (hc : Concatenates concat)
    (h : Renameable env.toKernel d.fs destI) (htaken : efdAt env.toKernel d.fs destI ≠ .none) :
    ∃ n d', nonExistingDestBy concat env destI d = .ok (candidate destI (n+1)) d' ∧ d'.fs = d.fs ∧
      efdAt env.toKernel d.fs (candidate destI (n+1)) = .none ∧
      ∀ j < n, efdAt env.toKernel d.fs (candidate destI (j+1)) ≠ .none := by
  obtain ⟨m,hm,hfree⟩ := h.free
  have hends : wp (nonExistingDestBy concat env destI)
      (fun dest d' => d'.fs = d.fs ∧ ∃ j, dest = attempted concat destI j ∧
        efdAt env.toKernel d.fs dest = .none ∧
        ∀ l < j, efdAt env.toKernel d.fs (attempted concat destI l) ≠ .none) (fun _ _ => False) d := by
    refine wp_mono wp_nonExistingDestBy (fun _ _ hd => hd) fun e d' he => ?_
    -- all it looked at is taken, which are more names than there are places
    have hnumbers : ∀ j < d.fs.paths.length+1,
        efdAt env.toKernel d.fs (candidate destI (j+1)) ≠ .none := by
      intro j hj
      have htried := he.2 (j+1) (by omega)
      by_cases hjm : j+1 ≤ 2^32
      · rwa [attempted_candidate hc h.parent hjm] at htried
      · have hlow := he.2 (m+1) (by omega)
        rw [attempted_candidate hc h.parent (by omega)] at hlow
        exact absurd hfree hlow
    have hle := taken_le h.nulFree hnumbers
    omega
  obtain ⟨dest,d',hrun,hfs,j,rfl,hnone,hall⟩ := ok_of_wp hends
  have hfirst : j ≤ m+1 := by
    by_contra hlt
    have hlow := hall (m+1) (by omega)
    rw [attempted_candidate hc h.parent (by omega)] at hlow
    exact hlow hfree
  rw [attempted_candidate hc h.parent (by omega)] at hrun hnone
  cases j with
  | zero => exact absurd hnone htaken
  | succ n =>
    refine ⟨n,d',hrun,hfs,hnone,fun j hj => ?_⟩
    have htried := hall (j+1) (by omega)
    rwa [attempted_candidate hc h.parent (by omega)] at htried

end Search

section Paths

variable {k : Kernel} {fs fs' : FileSystem} {x y destI dest : Str} {cs : List Name} {c : Name}

/-- What stands at a path from the root depends on its names and on a slash at its end. -/
theorem efdAt_congr (hx : absolute (cstr x)) (hy : absolute (cstr y))
    (hcomp : components (cstr x) = components (cstr y))
    (hend : endsWithSlash (cstr x) ↔ endsWithSlash (cstr y)) : efdAt k fs x = efdAt k fs y := by
  have hspot : k.spot fs x = k.spot fs y := by
    rw [Kernel.spot,Kernel.spot,if_neg (Kernel.cstr_ne_nil_of_absolute hx),
      if_neg (Kernel.cstr_ne_nil_of_absolute hy),Kernel.start_absolute hx,Kernel.start_absolute hy,hcomp]
  have hfollow : k.follow fs x = k.follow fs y := by
    rw [Kernel.follow,Kernel.follow,if_neg (Kernel.cstr_ne_nil_of_absolute hx),
      if_neg (Kernel.cstr_ne_nil_of_absolute hy),Kernel.start_absolute hx,Kernel.start_absolute hy,names,
      names,hcomp]
    simp only [hend]
  have hglance : k.glance fs x = k.glance fs y := by
    simp only [Kernel.glance,hend,hspot,hfollow]
  rw [efdAt,efdAt,hglance]

theorem Spells.efdAt_eq (hx : Spells x cs) (hy : Spells y cs) : efdAt k fs x = efdAt k fs y := by
  have hxc := cstr_of_nulFree hx.nulFree
  have hyc := cstr_of_nulFree hy.nulFree
  refine efdAt_congr (Kernel.absolute_cstr hx.absolute) (Kernel.absolute_cstr hy.absolute) ?_ ?_
  · rw [hxc,hyc,hx.components,hy.components]
  · rw [hxc,hyc]
    exact iff_of_false hx.noSlash hy.noSlash

theorem path_parts (habs : absolute destI) (hend : ¬ endsWithSlash destI) :
    ∃ c, getFilenameFromFullPath destI = c ∧ c ≠ [] ∧
      components destI = components (getParentDir destI) ++ [c] := by
  obtain ⟨x,c,rfl,hc,_,hcomp⟩ := split_at_lastSlash habs
  have hne : c ≠ [] := by
    rintro rfl
    exact hend (by simp [endsWithSlash])
  rw [if_neg hne] at hcomp
  refine ⟨c,?_,hne,?_⟩
  · rw [getFilenameFromFullPath,lastSlash_append hc]
    simp
  · rw [getParentDir_append hc,hcomp]

theorem spells_candidate (habs : absolute destI) (hnul : NulFree destI)
    (hparent : getParentDir destI ≠ []) (n : Nat) :
    Spells (candidate destI (n+1))
      (components (getParentDir destI) ++ [getFilenameFromFullPath destI ++ toStr n]) := by
  obtain ⟨hp,hf⟩ := nulFree_parts hnul
  have hproper := properName_numbered (slash_not_mem_filename destI) hf n
  obtain ⟨y,hy⟩ := getParentDir_eq rfl hparent
  have hpabs : absolute (getParentDir destI) := by
    rw [hy,absolute,List.head?_append_of_ne_nil _ hparent] at habs
    exact habs
  exact ⟨absolute_pathConcat hpabs,nulFree_pathConcat hp hproper.2.2.1,
    not_endsWithSlash_pathConcat _ hproper,components_pathConcat _ hproper⟩

theorem firstFree_candidate (habs : absolute destI) (hnul : NulFree destI)
    (hend : ¬ endsWithSlash destI) (hparent : getParentDir destI ≠ []) {n : Nat}
    (hfree : efdAt k fs (candidate destI (n+1)) = .none)
    (hall : ∀ j < n, efdAt k fs (candidate destI (j+1)) ≠ .none) :
    FirstFree k fs destI (candidate destI (n+1)) := by
  obtain ⟨c,hc,_,hcomp⟩ := path_parts habs hend
  subst hc
  refine ⟨_,_,n,hcomp,spells_candidate habs hnul hparent n,hfree,fun j hj x hx => ?_⟩
  rw [hx.efdAt_eq (spells_candidate habs hnul hparent j)]
  exact hall j hj

end Paths

section Outcomes

variable {concat : Str → Str → Str} {env : CopyEnv} {srcI destI dest : Str} {s : CopyState} {d : Disk}
  {fs : FileSystem} {p : Path} {c b : Name}

theorem movedTo_sibling (hcan : fs.CanMove (p ++ [c]) p b) (hfree : ¬ fs.has (p ++ [b])) :
    MovedTo fs ((Change.move (p ++ [c]) p b).apply fs) (p ++ [c]) (p ++ [b]) := by
  have hout : ∀ t, ¬ p ++ [b] <+: p ++ [c] ++ t := by
    intro t ht
    have hpre := List.prefix_of_prefix_length_le ht (List.prefix_append (p ++ [c]) t) (by simp)
    have heq := hpre.eq_of_length (by simp)
    exact hfree (heq ▸ hcan.2.1)
  refine ⟨hfree,fun t => ?_,fun t => ?_,fun r ha hb => ?_⟩
  · rw [Change.node_move hcan,FileSystem.movedNode_at]
  · rw [Change.node_move hcan,FileSystem.movedNode_away (hout t),if_pos (List.prefix_append _ t)]
  · rw [Change.node_move hcan,FileSystem.movedNode_away hb,if_neg ha]

theorem spots_beside {k : Kernel} {q : Path} {cs : List Name} {a e : Name} (hx : absolute destI)
    (hxn : NulFree destI) (hcomp : components destI = cs ++ [a]) (hdest : Spells dest (cs ++ [e]))
    (hs : k.spot fs destI = .ok (.name p c)) (ht : k.spot fs dest = .ok (.name q b)) :
    q = p ∧ c = a ∧ b = e := by
  have habs := Kernel.absolute_cstr hx
  have habs' := Kernel.absolute_cstr hdest.absolute
  rw [Kernel.spot,if_neg (Kernel.cstr_ne_nil_of_absolute habs),Kernel.start_absolute habs,
    cstr_of_nulFree hxn,hcomp] at hs
  rw [Kernel.spot,if_neg (Kernel.cstr_ne_nil_of_absolute habs'),Kernel.start_absolute habs',
    cstr_of_nulFree hdest.nulFree,hdest.components] at ht
  obtain ⟨_,_,_,hc,hp⟩ := Kernel.spotFrom_name hs
  obtain ⟨_,_,_,hb,hq⟩ := Kernel.spotFrom_name ht
  rw [List.dropLast_concat] at hp hq
  rw [List.getLast?_concat,Option.some.injEq] at hc hb
  exact ⟨Except.ok.inj (hq.symm.trans hp),hc.symm,hb.symm⟩

theorem onDisk_ok {α : Type} {x : DiskM α} {a : α} (h : x s.disk = .ok a d) :
    onDisk x s = .ok a { s with disk := d } := by
  have hrun : x (diskLens.get s) = .ok a d := h
  simp only [onDisk,Lens.run,hrun]
  rfl

theorem wp_unsolvableError (srcI destI : Str) (s : CopyState) :
    wp (unsolvableError env srcI destI) (fun _ s' => s'.disk = s.disk ∧ s'.S = s.S)
      (fun _ s' => s'.disk = s.disk ∧ s'.S = s.S) s := by
  have onSock_keeps : ∀ {α : Type} (x : ConnM α) (t : CopyState), t.disk = s.disk ∧ t.S = s.S →
      wp (onSock x) (fun _ s' => s'.disk = s.disk ∧ s'.S = s.S)
        (fun _ s' => s'.disk = s.disk ∧ s'.S = s.S) t := fun x t ht =>
    wp_onSock.mpr (wp_trivial (fun _ _ => ht) fun _ _ => ht)
  rw [unsolvableError,wp_bind,waitConflictOrErrorDec]
  simp only [send,wp_bind,wp_get,wp_modify]
  refine wp_mono (onSock_keeps _ s ⟨rfl,rfl⟩) (fun _ t₁ h₁ => ?_) fun _ _ h => h
  refine wp_mono (onSock_keeps _ t₁ h₁) (fun _ t₂ h₂ => ?_) fun _ _ h => h
  refine wp_mono (onSock_keeps _ t₂ h₂) (fun _ t₃ h₃ => ?_) fun _ _ h => h
  refine wp_mono (onSock_keeps _ t₃ h₃) (fun _ t₄ h₄ => ?_) fun _ _ h => h
  refine wp_mono (onSock_keeps _ t₄ h₄) (fun _ t₅ h₅ => ?_) fun _ _ h => h
  refine wp_mono (onSock_keeps _ _ h₅) (fun answer t₆ h₆ => ?_) fun _ _ h => h
  have hdec : ∀ dec, wp
      (if Decision.ofByte dec = .CD_CANCEL then throw .threadExit else pure () : CopyM Unit)
      (fun _ s' => s'.disk = s.disk ∧ s'.S = s.S) (fun _ s' => s'.disk = s.disk ∧ s'.S = s.S)
      t₆ := fun dec => wp_ite.mpr ⟨fun _ => h₆,fun _ => h₆⟩
  cases answer with
  | none => exact hdec _
  | some ret => exact hdec ret

theorem renamesSrc_of_found
    (hrun : nonExistingDestBy concat env destI s.disk = .ok dest d) (hfs : d.fs = s.disk.fs)
    (hfirst : FirstFree env.toKernel s.disk.fs destI dest) : RenamesSrc concat env srcI destI s := by
  refine ⟨dest,d,hfirst,hfs,?_⟩
  rw [autoRenameSrcBy,run_bind_ok (onDisk_ok hrun)]
  rfl

theorem wp_rename_found (habs : absolute destI) (hnul : NulFree destI)
    (hfirst : FirstFree env.toKernel d.fs destI dest) :
    wp (env.rename destI dest : DiskM _) (fun r d' =>
      match r with
      | .ok _ => ∃ p c n, env.spot d.fs destI = .ok (.name p c) ∧
          env.spot d.fs dest = .ok (.name p (c ++ toStr n)) ∧
          MovedTo d.fs d'.fs (p ++ [c]) (p ++ [c ++ toStr n])
      | .error _ => d'.fs = d.fs) (fun _ _ => False) d := by
  obtain ⟨cs,a,n,hcomp,hspells,hnone,_⟩ := hfirst
  rw [System.rename]
  refine System.wp_perform (fun _ => rfl) fun u ch hk => ?_
  obtain ⟨p,c,q,b,hs,ht,hhas,_,hres⟩ := Kernel.renameEffect_ok hk
  obtain ⟨rfl,rfl,rfl⟩ := spots_beside habs hnul hcomp hspells hs ht
  have hplace : env.glance d.fs dest = .ok (q ++ [c ++ toStr n]) := by
    rw [Kernel.glance,cstr_of_nulFree hspells.nulFree,if_neg hspells.noSlash,ht]
    rfl
  have hfree := not_has_of_efdAt hnone _ hplace
  refine ⟨q,c,n,hs,ht,?_⟩
  obtain ⟨heq,_⟩ | ⟨rfl,hcan,_⟩ := hres
  · exact absurd (heq ▸ hhas) hfree
  · exact movedTo_sibling hcan hfree

theorem renamesDest_of_found (habs : absolute destI) (hnul : NulFree destI)
    (hrun : nonExistingDestBy concat env destI s.disk = .ok dest d) (hfs : d.fs = s.disk.fs)
    (hfirst : FirstFree env.toKernel s.disk.fs destI dest) : RenamesDest concat env srcI destI s := by
  obtain ⟨r,d',hren,hout⟩ := ok_of_wp (@wp_rename_found env destI dest d habs hnul (by rwa [hfs]))
  rw [hfs] at hout
  have hsearch := run_bind_ok (onDisk_ok hrun) (f := fun destI' => (do
    match ← onDisk (env.rename destI destI') with
    | .error _ => unsolvableError env srcI destI'
    | .ok _ => push [(srcI,destI)] : CopyM Unit))
  have hrename : onDisk (env.rename destI dest) { s with disk := d } =
      .ok r { s with disk := d' } := onDisk_ok hren
  refine ⟨dest,d',hfirst,?_⟩
  cases r with
  | ok u =>
    obtain ⟨p,c,n,hs,ht,hmoved⟩ := hout
    refine .inl ⟨p,c,n,hs,ht,hmoved,?_⟩
    rw [autoRenameDestBy,hsearch,run_bind_ok hrename]
    rfl
  | error e =>
    have heq : autoRenameDestBy concat env srcI destI s =
        unsolvableError env srcI dest { s with disk := d' } := by
      rw [autoRenameDestBy,hsearch,run_bind_ok hrename]
    refine .inr ⟨hout,heq,?_⟩
    have htold := @wp_unsolvableError env srcI dest { s with disk := d' }
    unfold wp at htold ⊢
    rwa [heq]

end Outcomes

/-! ### The exact condition -/

section Condition

variable {concat : Str → Str → Str} {env : CopyEnv} {srcI destI : Str} {s : CopyState}

theorem efdAt_behind_nul {k : Kernel} {fs : FileSystem} (habs : absolute destI)
    (hnul : ¬ NulFree destI) (t : Str) :
    efdAt k fs (pathConcat (getParentDir destI) (getFilenameFromFullPath destI ++ t)) =
      efdAt k fs destI := by
  have cut : ∀ x, cstr x = cstr destI → efdAt k fs x = efdAt k fs destI := fun x hx => by
    have hdest := Kernel.absolute_cstr habs
    exact efdAt_congr (hx ▸ hdest) hdest (by rw [hx]) (by rw [hx])
  obtain ⟨x,c,rfl,hc,_,_⟩ := split_at_lastSlash habs
  have hname : getFilenameFromFullPath (x ++ slash :: c) = c := by
    rw [getFilenameFromFullPath,lastSlash_append hc]
    simp
  rw [getParentDir_append hc,hname]
  obtain ⟨hshape,hend⟩ | hshape := pathConcat_shape x (c ++ t)
  · obtain ⟨y,rfl⟩ := List.getLast?_eq_some_iff.mp hend
    rw [hshape]
    by_cases hy : NulFree (y ++ [slash])
    · -- one slash fewer stands before the name, which changes no component
      have hcnul : ¬ NulFree c := fun hfree => hnul (by
        simp only [NulFree,List.mem_append,List.mem_cons] at hy hfree ⊢
        tauto)
      have hcut : cstr (slash :: c) = slash :: cstr c := by simp [cstr,slash]
      have hdest := Kernel.absolute_cstr habs
      have hleft : cstr (y ++ [slash] ++ (c ++ t)) = y ++ slash :: cstr c := by
        rw [cstr_append_of_nulFree hy,cstr_append_of_nul hcnul,List.append_assoc,List.singleton_append]
      have hright : cstr (y ++ [slash] ++ slash :: c) = y ++ [slash] ++ slash :: cstr c := by
        rw [cstr_append_of_nulFree hy,hcut]
      have habs' : absolute (y ++ slash :: cstr c) := by
        rw [hright] at hdest
        unfold absolute at hdest ⊢
        cases y with
        | nil => rfl
        | cons b y => exact hdest
      refine efdAt_congr (hleft ▸ habs') hdest ?_ ?_
      · rw [hleft,hright,components_append_slash,components_append_slash,components_append_slash]
        simp [components,pieces]
      · rw [hleft,hright,endsWithSlash,endsWithSlash,List.getLast?_append_of_ne_nil _ (by simp),
          List.getLast?_append_of_ne_nil _ (by simp)]
    · exact cut _ (by rw [cstr_append_of_nul hy,cstr_append_of_nul hy])
  · refine cut _ ?_
    rw [hshape,← List.cons_append,← List.append_assoc,cstr_append_of_nul hnul]

theorem attempted_of_renamesSrc (hconflict : efdAt env.toKernel s.disk.fs destI ≠ .none)
    (h : RenamesSrc concat env srcI destI s) :
    ∃ j, FirstFree env.toKernel s.disk.fs destI (attempted concat destI (j+1)) := by
  obtain ⟨dest,d,hfirst,_,hrun⟩ := h
  have hpush : wp (autoRenameSrcBy concat env srcI destI) (fun _ s' => ∃ j,
      s'.S = (srcI,attempted concat destI j) :: s.S ∧
        efdAt env.toKernel s.disk.fs (attempted concat destI j) = .none) (fun _ _ => True) s := by
    rw [autoRenameSrcBy,wp_bind,wp_onDisk]
    refine wp_mono wp_nonExistingDestBy (fun dest' d' hd => ?_) fun _ _ _ => trivial
    obtain ⟨_,j,rfl,hnone,_⟩ := hd
    exact ⟨j,rfl,hnone⟩
  rw [wp_of_ok hrun] at hpush
  obtain ⟨j,hS,hnone⟩ := hpush
  obtain rfl : dest = attempted concat destI j := by simpa using hS
  cases j with
  | zero => exact absurd hnone hconflict
  | succ j => exact ⟨j,hfirst⟩

theorem not_renamesSrc_of_root (hconflict : efdAt env.toKernel s.disk.fs destI ≠ .none)
    (hroot : getParentDir destI = []) :
    ∃ concat, Concatenates concat ∧ ¬ RenamesSrc concat env srcI destI s := by
  refine ⟨fun dir name => if dir = [] then destI else pathConcat dir name,
    fun dir name hne => if_neg hne,fun h => ?_⟩
  obtain ⟨j,cs,c,n,_,_,hnone,_⟩ := attempted_of_renamesSrc hconflict h
  rw [attempted,hroot,if_pos rfl] at hnone
  exact hconflict hnone

theorem renameable_of_right (habs : absolute destI)
    (hconflict : efdAt env.toKernel s.disk.fs destI ≠ .none)
    (h : ∀ concat, Concatenates concat → RenamesSrc concat env srcI destI s) :
    Renameable env.toKernel s.disk.fs destI := by
  obtain ⟨j,cs,c,n,hcomp,hspells,hnone,_⟩ :=
    attempted_of_renamesSrc hconflict (h pathConcat fun _ _ _ => rfl)
  refine ⟨?_,?_,?_,⟨j % 2^32,Nat.mod_lt _ (by decide),hnone⟩⟩
  · by_contra hnul
    exact hconflict ((efdAt_behind_nul habs hnul _).symm.trans hnone)
  · intro hend
    obtain ⟨x,a,rfl,ha,_,hparts⟩ := split_at_lastSlash habs
    have hnil : a = [] := by
      by_contra hne
      rw [endsWithSlash,List.getLast?_append_of_ne_nil _ (by simp),List.getLast?_cons_of_ne_nil hne] at hend
      exact ha (List.mem_of_getLast? hend)
    subst hnil
    have hproper := @properName_numbered [] (by simp) (by simp [NulFree]) (j % 2^32)
    have hname : getFilenameFromFullPath (x ++ [slash]) = [] := by
      rw [getFilenameFromFullPath,lastSlash_append ha]
      simp
    have hdest := hspells.components
    rw [attempted,getParentDir_append ha,hname,components_pathConcat x hproper] at hdest
    rw [if_pos rfl,List.append_nil] at hparts
    rw [hparts] at hcomp
    have hlength := congrArg List.length hdest
    simp [hcomp] at hlength
  · intro hroot
    obtain ⟨concat,hc,hnot⟩ := @not_renamesSrc_of_root env srcI destI s hconflict hroot
    exact hnot (h concat hc)

/-- With the `pathConcat` of the common libraries these are the functions of the copy task. For whatever it
makes of an empty directory string, both renames come to the first free name beside the destination exactly if
there is one and the string shows its directory. -/
theorem autoRename_right (habs : absolute destI)
    (hconflict : efdAt env.toKernel s.disk.fs destI ≠ .none) :
    (autoRenameSrcBy pathConcat env srcI destI = autoRenameSrc env srcI destI ∧
      autoRenameDestBy pathConcat env srcI destI = autoRenameDest env srcI destI) ∧
    ((∀ concat, Concatenates concat →
      RenamesSrc concat env srcI destI s ∧ RenamesDest concat env srcI destI s) ↔
    Renameable env.toKernel s.disk.fs destI) := by
  refine ⟨⟨autoRenameSrcBy_pathConcat ..,autoRenameDestBy_pathConcat ..⟩,?_⟩
  refine ⟨fun h => renameable_of_right habs hconflict fun concat hc => (h concat hc).1,
    fun h concat hc => ?_⟩
  obtain ⟨n,d,hrun,hfs,hfree,hall⟩ := nonExistingDestBy_finds hc h hconflict
  have hfirst := firstFree_candidate habs h.nulFree h.noSlash h.parent hfree hall
  exact ⟨renamesSrc_of_found hrun hfs hfirst,renamesDest_of_found habs h.nulFree hrun hfs hfirst⟩

def twoTaken : FileSystem :=
  .ofEntries [([],.dir 0o755),([text ['x']],.file [] 0o644),([text ['d']],.dir 0o755),
    ([text ['d'],text ['x']],.file [] 0o644)] (by decide)

def conflictOn (fs : FileSystem) : CopyState := .start fs [] [] (fun _ => ⟨0,0,0⟩) ⟨0,0,0⟩

theorem autoRename_right_below :
    Renameable (CopyEnv.calm 0).toKernel twoTaken (text ['/','d','/','x']) ∧
      ∀ concat, Concatenates concat →
        RenamesSrc concat (.calm 0) (text ['/','x']) (text ['/','d','/','x']) (conflictOn twoTaken) ∧
          RenamesDest concat (.calm 0) (text ['/','x']) (text ['/','d','/','x'])
            (conflictOn twoTaken) := by
  have hfree : Renameable (CopyEnv.calm 0).toKernel twoTaken (text ['/','d','/','x']) :=
    ⟨by decide,by decide,by decide,0,by decide,by decide +kernel⟩
  refine ⟨hfree,(@autoRename_right (.calm 0) (text ['/','x']) (text ['/','d','/','x'])
    (conflictOn twoTaken) (by decide) (by decide +kernel)).2.mpr hfree⟩

/-- Directly under the root `pathConcat` is given the empty string. -/
theorem autoRename_below_root :
    absolute (text ['/','x']) ∧
      efdAt (CopyEnv.calm 0).toKernel twoTaken (text ['/','x']) = .file ∧
      getParentDir (text ['/','x']) = [] ∧
      ∃ concat, Concatenates concat ∧
        ¬ RenamesSrc concat (.calm 0) (text ['/','d','/','x']) (text ['/','x']) (conflictOn twoTaken) := by
  have hfile : efdAt (CopyEnv.calm 0).toKernel twoTaken (text ['/','x']) = .file := by decide +kernel
  have hconflict : efdAt (CopyEnv.calm 0).toKernel (conflictOn twoTaken).disk.fs (text ['/','x']) ≠
      .none := by
    rw [show (conflictOn twoTaken).disk.fs = twoTaken from rfl,hfile]
    decide
  exact ⟨by decide,hfile,by decide,not_renamesSrc_of_root hconflict (by decide)⟩

end Condition

end RootHelper
