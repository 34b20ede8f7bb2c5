import RootHelper.Utils

/-!
Sizes and numbers of what is to be transferred, as they are announced to the client. They are asked for
on the disk, call by call, while others may change it.
-/

set_option autoImplicit false

namespace RootHelper
open Posix Control

variable (sys : System)

/-- `st_size`; that of a directory is not looked at. -/
def nodeSize : Node → Nat
  | .file content _ => content.length
  | .link target => target.length
  | .dir _ => 0

/-- `st_mode` without the kind. -/
def nodeMode : Node → Nat
  | .file _ mode => mode
  | .dir mode => mode
  | .link _ => 511

/-- `osStat` with the size. -/
def osStatSize (filepath : Str) : DiskM (Option (Char × Nat)) := do
  match ← sys.lstat filepath with
  | .error _ => pure none
  | .ok n => do
    let letter ← getPermissions sys filepath n
    pure (some (letter,nodeSize n))

theorem wp_osStatSize {filepath : Str} {d : Disk} {Q : Option (Char × Nat) → Disk → Prop}
    {E : Stop → Disk → Prop}
    (hnone : ∀ e d', Quiet d d' → Kernel.nodeAt d.fs (sys.glance d.fs filepath) = .error e → Q none d')
    (hsome : ∀ n letter d', Quiet d d' → Kernel.nodeAt d.fs (sys.glance d.fs filepath) = .ok n →
      (letter = 'd' ↔ n.isDir = true) → Q (some (letter,nodeSize n)) d') :
    wp (osStatSize sys filepath) Q E d := by
  simp only [osStatSize,wp_bind]
  refine wp_look_quiet (fun _ _ hk => System.lstatEffect_quiet hk) fun d₁ h₁ => ?_
  have hres : (sys.lstatEffect filepath d.fs).map Prod.fst =
      Kernel.nodeAt d.fs (sys.glance d.fs filepath) := by
    unfold Kernel.lstatEffect
    cases Kernel.nodeAt d.fs (sys.glance d.fs filepath) <;> rfl
  rw [hres]
  cases hn : Kernel.nodeAt d.fs (sys.glance d.fs filepath) with
  | error e => exact hnone e d₁ h₁ hn
  | ok n =>
    simp only [wp_bind]
    cases n with
    | file content m => exact hsome _ '-' d₁ h₁ hn (by simp [Node.isDir])
    | dir m => exact hsome _ 'd' d₁ h₁ hn (by simp [Node.isDir])
    | link t =>
      simp only [getPermissions,wp_bind]
      refine wp_look_quiet (fun _ _ hk => System.statEffect_quiet hk) fun d₂ h₂ => ?_
      have hq := trans_of Quiet h₁ h₂
      split
      · exact hsome _ 'L' d₂ hq hn (by simp [Node.isDir])
      · exact hsome _ 'l' d₂ hq hn (by simp [Node.isDir])

def osGetSize (filepath : Str) : DiskM Nat := do
  match ← sys.lstat filepath with
  | .error _ => pure 0
  | .ok n => pure (nodeSize n)

def openPlain (dir : Str) : DiskM (Option (List (Str × Name))) :=
  if ¬ absolute dir then do
    modify fun d => { d with errno := Errno.EINVAL.code }
    pure none
  else do
    match ← sys.opendir dir with
    | .error _ => pure none
    | .ok names => pure (some (names.map fun d_name => (dir ++ slash :: d_name,d_name)).reverse)

theorem wp_openPlain_granted {dir : Str} {p : Path} {d : Disk}
    {Q : Option (List (Str × Name)) → Disk → Prop} {E : Stop → Disk → Prop}
    (hgrant : ∀ t, sys.refuse t = none) (habs : absolute dir) (hp : sys.follow d.fs dir = .ok p)
    (hdir : d.fs.isDir p) (hQ : ∀ (ns : List Name) d', Quiet d d' → ns.Perm (d.fs.children p) →
      Q (some (ns.map fun c => (dir ++ slash :: c,c))) d') : wp (openPlain sys dir) Q E d := by
  rw [openPlain,if_neg (not_not.mpr habs),wp_bind]
  refine System.wp_opendir (fun _ _ _ hno => ?_) fun q names d' hq _ hfollow _ hperm => ?_
  · exact absurd ⟨hgrant _,p,hp,hdir⟩ hno
  · obtain rfl := Except.ok.inj (hp.symm.trans hfollow)
    have hlist := hQ names.reverse d' hq ((List.reverse_perm names).trans hperm)
    rwa [List.map_reverse] at hlist

structure StsSz where
  tFiles : Nat
  tFolders : Nat
  tSize : Nat
  deriving DecidableEq, Repr

instance : Add StsSz :=
  ⟨fun num subNum => ⟨num.tFiles + subNum.tFiles,num.tFolders + subNum.tFolders,
    num.tSize + subNum.tSize⟩⟩

abbrev CountMap := Str → StsSz

def countEntries (count : Str → CountMap → DiskM (StsSz × CountMap)) :
    List (Str × Name) → StsSz → CountMap → DiskM (StsSz × CountMap)
  | [], num, m => pure (num,m)
  | e :: es, num, m => do
    efdL sys e.1
    let (subNum,m) ← count e.1 m
    countEntries count es (num + subNum) m

def countTotalStatsIntoMap : Nat → Str → CountMap → DiskM (StsSz × CountMap)
  | 0, _, _ => throw .diverged
  | depth+1, name, m => do
    match ← existsIsFileIsDir_ sys name with
    | .none => pure (⟨0,0,0⟩,Function.update m name ⟨0,0,0⟩)
    | .file => do
      let size ← osGetSize sys name
      pure (⟨1,0,size⟩,Function.update m name ⟨1,0,size⟩)
    | .dir => do
      let entries ← openPlain sys name
      let (num,m) ←
        countEntries sys (countTotalStatsIntoMap depth) (entries.getD []) ⟨0,1,0⟩ m
      pure (num,Function.update m name num)

end RootHelper
