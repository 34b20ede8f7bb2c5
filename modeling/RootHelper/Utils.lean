import RootHelper.Posix.History
import RootHelper.PathUtils
import RootHelper.Wire

/-!
The file system utilities of the helper that its handlers share: what stands at a path, creating
a directory with those above it, listing one directory and deleting a tree.
-/

set_option autoImplicit false

namespace RootHelper
open Posix Control

abbrev DiskM := EStateM Stop Disk

/-- What `existsIsFileIsDir_` gives as 0, 1 and 2. -/
inductive Efd where
  | none | file | dir
  deriving DecidableEq, Repr

variable (sys : System)

/-- The first letter of the permission string: `L` for a link to a directory. -/
def getPermissions (pathname : Str) : Node → DiskM Char
  | .link _ => do
    match ← sys.stat pathname with
    | .ok (.dir _) => pure 'L'
    | _ => pure 'l'
  | .dir _ => pure 'd'
  | .file _ _ => pure '-'

def osStat (filepath : Str) : DiskM (Option Char) := do
  match ← sys.lstat filepath with
  | .error _ => pure none
  | .ok n => some <$> getPermissions sys filepath n

def existsIsFileIsDir_ (filepath : Str) : DiskM Efd := do
  match ← osStat sys filepath with
  | none => pure .none
  | some 'd' => pure .dir
  | some _ => pure .file

/-- What the answer depends on; asking changes nothing. -/
def efdAt (k : Kernel) (fs : FileSystem) (filepath : Str) : Efd :=
  match Kernel.nodeAt fs (k.glance fs filepath) with
  | .ok (.dir _) => .dir
  | .ok _ => .file
  | .error _ => .none

theorem not_has_of_efdAt {k : Kernel} {fs : FileSystem} {s : Str} (h : efdAt k fs s = .none)
    (r : Path) (hr : k.glance fs s = .ok r) : ¬ fs.has r := by
  intro hhas
  obtain ⟨n,hn⟩ := FileSystem.has_iff.mp hhas
  unfold efdAt Kernel.nodeAt at h
  simp only [hr,bind,Except.bind,hn] at h
  cases n <;> simp at h

theorem has_of_efdAt {k : Kernel} {fs : FileSystem} {s : Str} (h : efdAt k fs s ≠ .none) :
    ∃ q, k.glance fs s = .ok q ∧ fs.has q := by
  unfold efdAt at h
  cases hn : Kernel.nodeAt fs (k.glance fs s) with
  | error e => simp [hn] at h
  | ok n =>
    obtain ⟨q,hq,hnode⟩ := Kernel.nodeAt_ok hn
    exact ⟨q,hq,FileSystem.has_iff.mpr ⟨n,hnode⟩⟩

theorem efdAt_dir {k : Kernel} {fs : FileSystem} {s : Str} (h : efdAt k fs s = .dir) :
    ∃ p m, k.glance fs s = .ok p ∧ fs.node p = some (.dir m) ∧ k.follow fs s = .ok p := by
  unfold efdAt at h
  cases hn : Kernel.nodeAt fs (k.glance fs s) with
  | error e => simp [hn] at h
  | ok n =>
    obtain ⟨p,hp,hnode⟩ := Kernel.nodeAt_ok hn
    cases n with
    | file content m => simp [hn] at h
    | link t => simp [hn] at h
    | dir m => exact ⟨p,m,hp,hnode,Kernel.follow_of_glance hp hnode (by simp)⟩

section Existing

variable {sys} {filepath : Str} {d : Disk}

theorem wp_look_quiet {ε α : Type} {c : Call} {k : FileSystem → Except Errno (α × Option Change)}
    {Q : Except Errno α → Disk → Prop} {E : ε → Disk → Prop}
    (hk : ∀ a ch, k d.fs = .ok (a,ch) → ch = none)
    (hQ : ∀ d', Quiet d d' → Q ((k d.fs).map Prod.fst) d') : wp (System.look c k) Q E d := by
  rw [System.wp_look]
  cases h : k d.fs with
  | error e =>
    refine (h ▸ hQ _) (grown_failed ?_)
    intro _ hc
    simp at hc
  | ok r =>
    refine (h ▸ hQ _) (grown_done ?_)
    intro _ hc
    simp [hk r.1 r.2 h] at hc

theorem wp_existsIsFileIsDir_ {Q : Efd → Disk → Prop} {E : Stop → Disk → Prop}
    (h : ∀ d', Quiet d d' → Q (efdAt sys.toKernel d.fs filepath) d') :
    wp (existsIsFileIsDir_ sys filepath) Q E d := by
  simp only [existsIsFileIsDir_,osStat,wp_bind]
  refine wp_look_quiet (fun _ _ hk => System.lstatEffect_quiet hk) fun d' hd' => ?_
  have hres : (sys.lstatEffect filepath d.fs).map Prod.fst =
      Kernel.nodeAt d.fs (sys.glance d.fs filepath) := by
    unfold Kernel.lstatEffect
    cases Kernel.nodeAt d.fs (sys.glance d.fs filepath) <;> rfl
  rw [hres]
  unfold efdAt at h
  cases hn : Kernel.nodeAt d.fs (sys.glance d.fs filepath) with
  | error e =>
    rw [hn] at h
    exact h d' hd'
  | ok n =>
    rw [hn] at h
    cases n with
    | file content m => exact h d' hd'
    | dir m => exact h d' hd'
    | link t =>
      simp only [wp_map,getPermissions,wp_bind]
      refine wp_look_quiet (fun _ _ hk => System.statEffect_quiet hk) fun d'' hd'' => ?_
      have hq := h d'' (trans_of Quiet hd' hd'')
      split <;> exact hq

theorem wp_existsIsFileIsDir_final {Q : Efd → Disk → Prop} {E : Stop → Disk → Prop}
    (h : Quiet d (final (existsIsFileIsDir_ sys filepath) d) →
      Q (efdAt sys.toKernel d.fs filepath) (final (existsIsFileIsDir_ sys filepath) d)) :
    wp (existsIsFileIsDir_ sys filepath) Q E d :=
  wp_final (wp_existsIsFileIsDir_ fun _ hd e => e ▸ h (e ▸ hd))

end Existing

def isDirectoryEmpty (dirname : Str) : DiskM Int := do
  match ← sys.opendir dirname with
  | .error _ => pure (-1)
  | .ok names => pure (if names = [] then 1 else 0)

theorem wp_isDirectoryEmpty {dirname : Str} {d : Disk} {Q : Int → Disk → Prop}
    {E : Stop → Disk → Prop} (h : ∀ r d', Quiet d d' → Q r d') :
    wp (isDirectoryEmpty sys dirname) Q E d := by
  simp only [isDirectoryEmpty,wp_bind]
  exact System.wp_opendir (fun _ d' hq _ => h _ d' hq) (fun _ _ d' hq _ _ _ _ => h _ d' hq)

/-- The prefixes of `s` that end before one of its slashes, the first byte apart. -/
def partialPaths (s : Str) : List Str :=
  ((List.range s.length).filter fun i => 0 < i ∧ s[i]? = some slash).map s.take

def mkpathAlong (mode : Nat) (exist_ok : Bool) : List Str → DiskM Int
  | [] => pure 0
  | partialPath :: rest => do
    match ← sys.mkdir partialPath mode with
    | .ok _ => mkpathAlong mode exist_ok rest
    | .error e =>
      if (exist_ok = false ∧ rest = []) ∨ e ≠ .EEXIST then pure (-1)
      else mkpathAlong mode exist_ok rest

def mkpath (s : Str) (mode : Nat) (exist_ok : Bool) : DiskM Int :=
  if s = [dot] ∨ s = [slash] then pure 0
  else if (s ++ [slash]).head? ≠ some slash then pure (-1)
  else mkpathAlong sys mode exist_ok (partialPaths (s ++ [slash]))

/-- The mode given to directories that take no other's: 0755. -/
def defaultMode : Nat := 0o755

/-- Asked of each entry an iterator hands out. -/
def efdL (path : Str) : DiskM Unit := do
  match ← sys.lstat path with
  | .ok (.link _) => do
    let _ ← sys.stat path
    pure ()
  | _ => pure ()

def efdLAll : List (Str × Name) → DiskM Unit
  | [] => pure ()
  | e :: es => do
    efdL sys e.1
    efdLAll es

/-- An iterator over one directory, run to its end: the full paths with their names, or nothing
when it cannot be opened. Entries come off a stack, so the last one read is first. -/
def listPlain (dir : Str) : DiskM (Option (List (Str × Name))) :=
  if ¬ absolute dir then do
    modify fun d => { d with errno := Errno.EINVAL.code }
    pure none
  else do
    match ← sys.opendir dir with
    | .error _ => pure none
    | .ok names => do
      let entries := (names.map fun d_name => (dir ++ slash :: d_name,d_name)).reverse
      efdLAll sys entries
      pure (some entries)

theorem wp_efdL {path : Str} {d : Disk} {Q : Unit → Disk → Prop} {E : Stop → Disk → Prop}
    (h : ∀ d', Quiet d d' → Q () d') : wp (efdL sys path) Q E d := by
  simp only [efdL,wp_bind]
  refine wp_look_quiet (fun _ _ hk => System.lstatEffect_quiet hk) fun d₁ h₁ => ?_
  split
  · rw [wp_bind]
    refine wp_look_quiet (fun _ _ hk => System.statEffect_quiet hk) fun d₂ h₂ => ?_
    exact h d₂ (trans_of Quiet h₁ h₂)
  · exact h d₁ h₁

theorem wp_efdLAll {es : List (Str × Name)} {d : Disk} {Q : Unit → Disk → Prop}
    {E : Stop → Disk → Prop} (h : ∀ d', Quiet d d' → Q () d') : wp (efdLAll sys es) Q E d := by
  induction es generalizing d with
  | nil => exact h d (refl_of Quiet d)
  | cons e es ih =>
    rw [efdLAll,wp_bind]
    exact wp_efdL sys fun d₁ h₁ => ih fun d₂ h₂ => h d₂ (trans_of Quiet h₁ h₂)

/-- What listing a directory gives: its names in some order, each with the directory's path before
it. -/
def Lists (k : Kernel) (fs : FileSystem) (dir : Str) (entries : List (Str × Name)) : Prop :=
  absolute dir ∧ ∃ (p : Path) (names : List Name), k.follow fs dir = .ok p ∧ fs.isDir p ∧
    names.Perm (fs.children p) ∧ entries = names.map fun c => (dir ++ slash :: c,c)

/-- An iterator over `dir` can be made. -/
def Listable (sys : System) (d : Disk) (dir : Str) : Prop := absolute dir ∧ sys.Opens d dir

theorem wp_listPlain {dir : Str} {d : Disk} {Q : Option (List (Str × Name)) → Disk → Prop}
    {E : Stop → Disk → Prop} (hnone : ∀ d', Quiet d d' → ¬ Listable sys d dir → Q none d')
    (hsome : ∀ entries d', Quiet d d' → Listable sys d dir → Lists sys.toKernel d.fs dir entries →
      Q (some entries) d') : wp (listPlain sys dir) Q E d := by
  unfold listPlain
  rw [wp_ite]
  refine ⟨fun hrel => ?_,fun habs => ?_⟩
  · exact hnone _ ⟨[],by simp,.nil _⟩ fun h => hrel h.1
  · rw [wp_bind]
    refine System.wp_opendir (fun _ d' h hno => hnone d' h fun hl => hno hl.2)
      fun p names d' h hopens hp hd hperm => ?_
    rw [wp_bind]
    refine wp_efdLAll sys fun d'' h'' => ?_
    have habs : absolute dir := by simpa using habs
    refine hsome _ d'' (trans_of Quiet h h'') ⟨habs,hopens⟩ ⟨habs,p,names.reverse,hp,hd,?_,?_⟩
    · exact (List.reverse_perm names).trans hperm
    · simp [List.map_reverse]

def MakesDir (fs : FileSystem) (c : Change) : Prop :=
  ∃ p n m, c = .put p n (.dir m) ∧ ¬ fs.has (p ++ [n])

theorem moves_mkdir (s : Str) (mode : Nat) :
    Moves (Grown (Changes MakesDir)) (sys.mkdir s mode : DiskM _) := by
  refine System.moves_perform (fun _ _ hc => by simp at hc) ?_
  intro fs pc ch hk c hc
  obtain ⟨rfl,_,hfree⟩ := Kernel.makeEffect_ok hk
  obtain rfl : Change.put pc.1 pc.2 (.dir (sys.masked mode)) = c := by simpa using hc
  exact ⟨_,_,_,rfl,hfree⟩

theorem moves_mkpath (s : Str) (mode : Nat) (exist_ok : Bool) :
    Moves (Grown (Changes MakesDir)) (mkpath sys s mode exist_ok) := by
  have along : ∀ l, Moves (Grown (Changes MakesDir)) (mkpathAlong sys mode exist_ok l) := by
    intro l
    induction l with
    | nil => exact moves_pure _
    | cons partialPath rest ih =>
      refine (moves_mkdir sys partialPath mode).bind fun r => ?_
      cases r with
      | ok u => exact ih
      | error e => exact (moves_pure _).ite ih
  exact (moves_pure _).ite ((moves_pure _).ite (along _))

theorem partialPaths_concat (s : Str) (e : Byte) :
    partialPaths (s ++ [e]) = partialPaths s ++ if s ≠ [] ∧ e = slash then [s] else [] := by
  have hfilter : ((List.range s.length).filter fun i => 0 < i ∧ (s ++ [e])[i]? = some slash) =
      (List.range s.length).filter fun i => 0 < i ∧ s[i]? = some slash := by
    refine List.filter_congr fun i hi => ?_
    rw [List.getElem?_append_left (List.mem_range.mp hi)]
  have htake : ((List.range s.length).filter fun i => 0 < i ∧ s[i]? = some slash).map
      (s ++ [e]).take = partialPaths s := by
    refine List.map_congr_left fun i hi => ?_
    have hlt := List.mem_range.mp (List.mem_filter.mp hi).1
    exact List.take_append_of_le_length (Nat.le_of_lt hlt)
  simp only [partialPaths,List.length_append,List.length_singleton,List.range_succ,List.filter_append,
    hfilter,List.map_append]
  rw [htake]
  by_cases hcut : s ≠ [] ∧ e = slash
  · simp [partialPaths,hcut,List.length_pos_of_ne_nil hcut.1]
  · have hno : ¬ (0 < s.length ∧ e = slash) := by
      rwa [List.length_pos_iff_ne_nil]
    simp [partialPaths,hcut,hno]

theorem partialPaths_append_slash {s : Str} (hs : s ≠ []) :
    partialPaths (s ++ [slash]) = partialPaths s ++ [s] := by
  rw [partialPaths_concat,if_pos ⟨hs,rfl⟩]

theorem partialPaths_append {s t : Str} (ht : slash ∉ t) : partialPaths (s ++ t) = partialPaths s := by
  induction t using List.reverseRecOn with
  | nil => rw [List.append_nil]
  | append_singleton t e ih =>
    simp only [List.mem_append,List.mem_singleton,not_or] at ht
    rw [← List.append_assoc,partialPaths_concat,if_neg (fun h => ht.2 h.2.symm),List.append_nil,
      ih ht.1]

theorem mem_partialPaths {s x : Str} (h : x ∈ partialPaths s) :
    x ≠ [] ∧ ∃ y, s = x ++ slash :: y := by
  obtain ⟨i,hi,rfl⟩ := List.mem_map.mp h
  obtain ⟨hlt,hi⟩ := List.mem_filter.mp hi
  simp only [decide_eq_true_eq] at hi
  have hlt := List.mem_range.mp hlt
  refine ⟨fun hnil => ?_,s.drop (i+1),?_⟩
  · have hlen := congrArg List.length hnil
    rw [List.length_take,List.length_nil] at hlen
    omega
  · have hget : s[i] = slash := by simpa [List.getElem?_eq_getElem hlt] using hi.2
    rw [← hget,← List.drop_eq_getElem_cons hlt,List.take_append_drop]

section Making

variable {sys} {s : Str} {mode : Nat} {d : Disk} {E : Stop → Disk → Prop}

theorem wp_mkpathAlong_taken (hgrant : ∀ t, sys.refuse t = none) {l l' : List Str}
    {Q : Int → Disk → Prop} (hl : ∀ x ∈ l, ∀ m, sys.makeEffect x (.dir m) d.fs = .error .EEXIST)
    (h : ∀ d', Quiet d d' → wp (mkpathAlong sys mode true l') Q E d') :
    wp (mkpathAlong sys mode true (l ++ l')) Q E d := by
  induction l generalizing d with
  | nil => exact h d (refl_of Quiet d)
  | cons x l ih =>
    rw [List.cons_append,mkpathAlong,wp_bind,System.mkdir,System.wp_perform_granted (hgrant _),
      hl x (by simp)]
    simp only [System.settled]
    have hcontinue : ¬ ((true = false ∧ l ++ l' = []) ∨ Errno.EEXIST ≠ .EEXIST) := by simp
    rw [if_neg hcontinue]
    have hquiet : Quiet d (d.failed (.mkdir x mode) .EEXIST) := grown_failed fun _ hc => by simp at hc
    exact ih (fun y hy m => hl y (by simp [hy]) m) fun d' hd' => h d' (trans_of Quiet hquiet hd')

theorem wp_mkpath_free {p : Path} {c : Name} {Q : Int → Disk → Prop}
    (hgrant : ∀ t, sys.refuse t = none) (habs : absolute s) (hnul : NulFree s)
    (hs : sys.glance d.fs s = .ok (p ++ [c])) (hfree : ¬ d.fs.has (p ++ [c]))
    (hQ : ∀ d', d'.fs = (Change.put p c (.dir (sys.masked mode))).apply d.fs → Q 0 d') :
    wp (mkpath sys s mode true) Q E d := by
  obtain ⟨p',c',hspot,he,hsl⟩ := Kernel.spot_of_glance_free hs hfree
  obtain ⟨rfl,e⟩ := List.append_inj' he rfl
  obtain rfl : c = c' := by simpa using e
  rw [cstr_of_nulFree hnul] at hsl
  have hne : s ≠ [] := by
    rintro rfl
    simp [absolute] at habs
  have hdot : ¬ (s = [dot] ∨ s = [slash]) := by
    intro h
    rcases h with rfl | rfl
    · simp [absolute,dot,slash] at habs
    · simp [endsWithSlash] at hsl
  have hhead : ¬ (s ++ [slash]).head? ≠ some slash := by
    rw [List.head?_append_of_ne_nil _ hne]
    exact not_not.mpr habs
  have hwalk : sys.walk d.fs Kernel.maxLinks [] (components s).dropLast = .ok p := by
    have hfrom := hspot
    simp only [Kernel.spot,cstr_of_nulFree hnul,if_neg hne,Kernel.start,if_pos habs] at hfrom
    exact (Kernel.spotFrom_name hfrom).2.2.2.2
  unfold mkpath
  rw [if_neg hdot,if_neg hhead,partialPaths_append_slash hne]
  refine wp_mkpathAlong_taken hgrant (fun x hx m => ?_) fun d' hd' => ?_
  · obtain ⟨hxne,y,rfl⟩ := mem_partialPaths hx
    have hxnul : NulFree x := fun h => hnul (by simp [h])
    have hxabs : absolute x := by
      unfold absolute at habs ⊢
      rwa [List.head?_append_of_ne_nil _ hxne] at habs
    -- the components of `x` are walked on the way to `p`
    have hy : components y ≠ [] := by
      refine components_ne_nil_of_end (fun h => hsl ?_) fun h => hsl ?_
      · simp [h,endsWithSlash]
      · unfold endsWithSlash at h ⊢
        rw [List.getLast?_append_of_ne_nil _ (by simp),List.getLast?_cons_of_ne_nil]
        · exact h
        · rintro rfl
          simp at h
    rw [components_append_slash,List.dropLast_append_of_ne_nil hy] at hwalk
    obtain ⟨r,_,hr,_⟩ := Kernel.walk_append hwalk
    refine Kernel.makeEffect_taken (by rwa [cstr_of_nulFree hxnul]) ?_ (q := r) ?_
    · rw [cstr_of_nulFree hxnul,Kernel.start,if_pos hxabs]
      exact d.fs.has_root
    · rw [cstr_of_nulFree hxnul,Kernel.start,if_pos hxabs]
      exact hr
  · have hfs : d'.fs = d.fs := hd'.fs_eq
    rw [mkpathAlong,wp_bind,System.mkdir,System.wp_perform_granted (hgrant _),hfs,
      Kernel.makeEffect_free hspot hfree (by rwa [cstr_of_nulFree hnul])]
    simp only [System.settled,mkpathAlong,wp_pure]
    exact hQ _ (by simp [Disk.done,Event.apply,hfs])

end Making

/-- The loop over the stack of places still to be deleted, each with its visited flag. A directory
that cannot be opened a second time leaves `readdir` without one. -/
def deleteLoop : Nat → List (Str × Bool) → Int → DiskM Int
  | 0, _, _ => throw .diverged
  | _+1, [], ret => pure ret
  | n+1, (x,visited) :: S, ret => do
    match ← existsIsFileIsDir_ sys x with
    | .none => deleteLoop n S ret
    | .file => do
      match ← sys.remove x with
      | .ok _ => deleteLoop n S ret
      | .error _ => deleteLoop n S (-1)
    | .dir => do
      if (← isDirectoryEmpty sys x) ≠ 0 then do
        match ← sys.remove x with
        | .ok _ => deleteLoop n S ret
        | .error _ => deleteLoop n S (-1)
      else if visited then deleteLoop n S ret
      else do
        match ← sys.opendir x with
        | .error _ => throw .crash
        | .ok names =>
          deleteLoop n ((names.map fun d_name => (x ++ slash :: d_name,false)).reverse ++
            (x,true) :: S) ret

/-- Every place is met at most twice, so more turns than that are not needed. -/
def genericDeleteBasicImpl (path : Str) : DiskM Int := do
  let d ← get
  deleteLoop sys (2*d.fs.paths.length + 2) [(path,false)] 0

end RootHelper
