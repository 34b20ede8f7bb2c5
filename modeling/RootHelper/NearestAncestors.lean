import RootHelper.DirectoriesAbove
import RootHelper.Posix.Making

/-!
Looking upwards from a path for something that stands: the walk is over when a parent's path is empty,
which it is also below the root.
-/

set_option autoImplicit false

namespace RootHelper
open Posix Control Kernel

section Spec

variable (k : Kernel) (fs : FileSystem) (s : Str)

def AtOrAbove (x : Str) : Prop := x ≠ [] ∧ (x = s ∨ ∃ y, s = x ++ slash :: y)

/-- What `stat` finds. -/
def StandsAt (x : Str) (st : Node) : Prop := nodeAt fs (k.follow fs x) = .ok st

/-- What stands at the longest of the path, those above it and the root. -/
def NearestStands : Option Node → Prop
  | none => False
  | some st => ∃ x, (AtOrAbove s x ∨ x = [slash]) ∧ StandsAt k fs x st ∧
      ∀ x' st', AtOrAbove s x' ∨ x' = [slash] → StandsAt k fs x' st' → x'.length ≤ x.length

/-- Something that is no directory is found at the path. -/
def NoDirectoryAt (x : Str) : Prop := k.ExistsAt fs x ∧ ¬ k.DirAt fs x

/-- A failure has one of its reasons: something that is no directory, a directory that has to be new, or
a last call that made none. -/
def FailsForReason (exist_ok : Bool) (r : Int) (d' : Disk) : Prop :=
  r ≠ 0 → (∃ x, AtOrAbove s x ∧ NoDirectoryAt k fs x) ∨ (exist_ok = false ∧ k.DirAt fs s) ∨
    ∃ x mode, d'.log.getLast? = some ⟨.mkdir x mode,none⟩

end Spec

section Parents

variable {s x : Str}

theorem AtOrAbove.prefix (h : AtOrAbove s x) : x <+: s := by
  rcases h.2 with rfl | ⟨y,rfl⟩
  · exact List.prefix_rfl
  · exact List.prefix_append _ _

theorem atOrAbove_parent (habs : absolute s) :
    AtOrAbove s x ↔ x = s ∨ AtOrAbove (getParentDir s) x := by
  obtain ⟨p,c,rfl,hc,-⟩ := split_at_lastSlash habs
  rw [getParentDir_append hc]
  constructor
  · rintro ⟨hne,rfl | ⟨y,heq⟩⟩
    · exact .inl rfl
    · refine .inr ⟨hne,?_⟩
      rcases List.append_eq_append_iff.mp heq with ⟨a,rfl,htail⟩ | ⟨a,rfl,htail⟩
      · cases a with
        | nil => exact .inl (by simp)
        | cons b a =>
          have hmem : slash ∈ c := by
            rw [(List.cons.inj htail).2]
            simp
          exact absurd hmem hc
      · cases a with
        | nil => exact .inl (by simp)
        | cons b a =>
          obtain rfl : b = slash := (List.cons.inj htail).1.symm
          exact .inr ⟨a,rfl⟩
  · rintro (rfl | ⟨hne,rfl | ⟨y,rfl⟩⟩)
    · exact ⟨by simp,.inl rfl⟩
    · exact ⟨hne,.inr ⟨c,rfl⟩⟩
    · exact ⟨hne,.inr ⟨y ++ slash :: c,by simp⟩⟩

theorem parent_shorter (habs : absolute s) : (getParentDir s).length < s.length := by
  obtain ⟨p,c,rfl,hc,-⟩ := split_at_lastSlash habs
  rw [getParentDir_append hc,List.length_append,List.length_cons]
  omega

theorem absolute_parent (habs : absolute s) (hne : getParentDir s ≠ []) : absolute (getParentDir s) := by
  obtain ⟨p,c,rfl,hc,hp,-⟩ := split_at_lastSlash habs
  rw [getParentDir_append hc] at hne ⊢
  exact hp hne

end Parents

section Looking

variable {sys : System} {s : Str} {d d' d'' : Disk} {E : Stop → Disk → Prop}

/-- Some calls have been made, and none of them made a directory. -/
def Looked (d d' : Disk) : Prop :=
  d'.fs = d.fs ∧ ∃ es, d'.log = d.log ++ es ∧ es ≠ [] ∧ ∀ e ∈ es, ∀ x mode, e.call ≠ .mkdir x mode

theorem Looked.trans (h : Looked d d') (h' : Looked d' d'') : Looked d d'' := by
  obtain ⟨hfs,es,hlog,hne,hall⟩ := h
  obtain ⟨hfs',es',hlog',-,hall'⟩ := h'
  refine ⟨hfs'.trans hfs,es ++ es',by rw [hlog',hlog,List.append_assoc],by simp [hne],fun e he => ?_⟩
  rcases List.mem_append.mp he with he | he
  · exact hall e he
  · exact hall' e he

theorem Looked.last (h : Looked d d') (x : Str) (mode : Nat) :
    d'.log.getLast? ≠ some ⟨.mkdir x mode,none⟩ := by
  obtain ⟨-,es,hlog,hne,hall⟩ := h
  intro hlast
  rw [hlog,List.getLast?_append_of_ne_nil _ hne] at hlast
  exact hall _ (List.mem_of_getLast? hlast) x mode rfl

theorem wp_stat {Q : Except Errno Node → Disk → Prop}
    (hok : ∀ st d', Looked d d' → StandsAt sys.toKernel d.fs s st → Q (.ok st) d')
    (herror : ∀ e d', Looked d d' → (∀ st, ¬ StandsAt sys.toKernel d.fs s st) → Q (.error e) d') :
    wp (sys.stat s) Q E d := by
  rw [System.stat,System.wp_look]
  unfold StandsAt at hok herror
  unfold Kernel.statEffect
  cases hn : nodeAt d.fs (sys.follow d.fs s) with
  | error e => exact herror e _ ⟨rfl,_,rfl,by simp,by simp⟩ (by simp [hn])
  | ok st => exact hok st _ ⟨rfl,_,rfl,by simp,by simp⟩ hn

theorem wp_lstat {Q : Except Errno Node → Disk → Prop}
    (hok : ∀ st d', Looked d d' → nodeAt d.fs (sys.glance d.fs s) = .ok st → Q (.ok st) d')
    (herror : ∀ e d', Looked d d' → ¬ sys.ExistsAt d.fs s → Q (.error e) d') :
    wp (sys.lstat s) Q E d := by
  rw [System.lstat,System.wp_look]
  unfold Kernel.lstatEffect
  cases hn : nodeAt d.fs (sys.glance d.fs s) with
  | error e =>
    refine herror e _ ⟨rfl,_,rfl,by simp,by simp⟩ ?_
    rintro ⟨q,hq,hhas⟩
    obtain ⟨n,hnode⟩ := FileSystem.has_iff.mp hhas
    simp [nodeAt,hq,hnode,bind,Except.bind] at hn
  | ok st => exact hok st _ ⟨rfl,_,rfl,by simp,by simp⟩ hn

theorem dirAt_iff_standsAt : sys.DirAt d.fs s ↔ ∃ m, StandsAt sys.toKernel d.fs s (.dir m) := by
  constructor
  · rintro ⟨q,hq,hdir⟩
    obtain ⟨m,hm⟩ := FileSystem.isDir_iff.mp hdir
    exact ⟨m,by simp [StandsAt,nodeAt,hq,hm,bind,Except.bind]⟩
  · rintro ⟨m,hm⟩
    obtain ⟨q,hq,hn⟩ := nodeAt_ok hm
    exact ⟨q,hq,FileSystem.isDir_iff.mpr ⟨m,hn⟩⟩

theorem wp_osStat {Q : Option Char → Disk → Prop}
    (hsome : ∀ letter d', Looked d d' → sys.ExistsAt d.fs s →
      ((letter = 'd' ∨ letter = 'L') ↔ sys.DirAt d.fs s) → Q (some letter) d')
    (hnone : ∀ d', Looked d d' → ¬ sys.ExistsAt d.fs s → Q none d') :
    wp (osStat sys s) Q E d := by
  rw [osStat,wp_bind]
  refine wp_lstat (fun st d₁ h₁ hst => ?_) fun e d₁ h₁ hno => hnone d₁ h₁ hno
  obtain ⟨q,hq,hn⟩ := nodeAt_ok hst
  have hexists : sys.ExistsAt d.fs s := ⟨q,hq,FileSystem.has_iff.mpr ⟨_,hn⟩⟩
  cases st with
  | file content m =>
    refine hsome '-' d₁ h₁ hexists (iff_of_false (by decide) ?_)
    rintro ⟨q',hq',hdir⟩
    rw [follow_of_glance hq hn (by simp)] at hq'
    obtain rfl := Except.ok.inj hq'
    simp [FileSystem.isDir,hn,Node.isDir] at hdir
  | dir m =>
    refine hsome 'd' d₁ h₁ hexists (iff_of_true (by decide) ?_)
    exact ⟨q,follow_of_glance hq hn (by simp),FileSystem.isDir_iff.mpr ⟨m,hn⟩⟩
  | link t =>
    simp only [wp_map,getPermissions,wp_bind]
    refine wp_stat (fun st' d₂ h₂ hst' => ?_) fun e d₂ h₂ hno => ?_
    · rw [h₁.1] at hst'
      have hdir : sys.DirAt d.fs s ↔ ∃ m, st' = .dir m := by
        rw [dirAt_iff_standsAt]
        unfold StandsAt at hst' ⊢
        simp [hst']
      cases st' with
      | dir m => exact hsome 'L' d₂ (h₁.trans h₂) hexists (iff_of_true (by decide) (hdir.mpr ⟨m,rfl⟩))
      | file content m => exact hsome 'l' d₂ (h₁.trans h₂) hexists (iff_of_false (by decide) (by simp [hdir]))
      | link t' => exact hsome 'l' d₂ (h₁.trans h₂) hexists (iff_of_false (by decide) (by simp [hdir]))
    · rw [h₁.1] at hno
      refine hsome 'l' d₂ (h₁.trans h₂) hexists (iff_of_false (by decide) fun hdir => ?_)
      obtain ⟨m,hm⟩ := dirAt_iff_standsAt.mp hdir
      exact hno _ hm

theorem wp_statNearestAncestor_first {n : Nat} {Q : Option Node → Disk → Prop} (habs : absolute s)
    (hn : s.length < n)
    (hsome : ∀ st x d', Looked d d' → AtOrAbove s x → StandsAt sys.toKernel d.fs x st →
      (∀ x' st', AtOrAbove s x' → StandsAt sys.toKernel d.fs x' st' → x'.length ≤ x.length) →
      Q (some st) d')
    (hnone : ∀ d', Looked d d' → (∀ x st, AtOrAbove s x → ¬ StandsAt sys.toKernel d.fs x st) →
      Q none d') :
    wp (statNearestAncestor sys n s) Q E d := by
  induction n generalizing s d with
  | zero => omega
  | succ n ih =>
    have hne : s ≠ [] := by
      rintro rfl
      simp [absolute] at habs
    rw [statNearestAncestor,wp_bind]
    refine wp_stat (fun st d₁ h₁ hst => ?_) fun e d₁ h₁ hno => ?_
    · exact hsome st s d₁ h₁ ⟨hne,.inl rfl⟩ hst fun x' st' hx' _ => hx'.prefix.length_le
    · dsimp only
      by_cases hp : getParentDir s = []
      · rw [if_pos hp]
        refine hnone d₁ h₁ fun x st hx => ?_
        rcases (atOrAbove_parent habs).mp hx with rfl | hx
        · exact hno st
        · rw [hp] at hx
          exact absurd (List.prefix_nil.mp hx.prefix) hx.1
      · rw [if_neg hp]
        have hlt := parent_shorter habs
        refine ih (absolute_parent habs hp) (by omega) (fun st x d₂ h₂ hx hst hlong => ?_)
          fun d₂ h₂ hnothing => ?_
        · rw [h₁.1] at hst hlong
          refine hsome st x d₂ (h₁.trans h₂) ((atOrAbove_parent habs).mpr (.inr hx)) hst
            fun x' st' hx' hst' => ?_
          rcases (atOrAbove_parent habs).mp hx' with rfl | hx'
          · exact absurd hst' (hno st')
          · exact hlong x' st' hx' hst'
        · rw [h₁.1] at hnothing
          refine hnone d₂ (h₁.trans h₂) fun x st hx => ?_
          rcases (atOrAbove_parent habs).mp hx with rfl | hx
          · exact hno st
          · exact hnothing x st hx

end Looking

section Functions

variable {sys : System} {s : Str} {d : Disk} {E : Stop → Disk → Prop}

theorem wp_statNearestAncestor_right (habs : absolute s) :
    wp (statNearestAncestor sys (s.length+1) s) (fun r d' => d'.fs = d.fs ∧
      (NearestStands sys.toKernel d.fs s r ↔
        ∃ x st, AtOrAbove s x ∧ StandsAt sys.toKernel d.fs x st)) E d := by
  refine wp_statNearestAncestor_first habs (Nat.lt_succ_self _) (fun st x d' h hx hst hlong => ?_)
    fun d' h hno => ?_
  · refine ⟨h.1,iff_of_true ⟨x,.inl hx,hst,fun x' st' hx' hst' => ?_⟩ ⟨x,st,hx,hst⟩⟩
    rcases hx' with hx' | rfl
    · exact hlong x' st' hx' hst'
    · exact List.length_pos_iff.mpr hx.1
  · exact ⟨h.1,iff_of_false id fun ⟨x,st,hx,hst⟩ => hno x st hx hst⟩

theorem wp_mkpathAlong_reason {mode : Nat} {exist_ok : Bool} (l : List Str) :
    wp (mkpathAlong sys mode exist_ok l) (fun r d' => r ≠ 0 →
      ∃ x mode, d'.log.getLast? = some ⟨.mkdir x mode,none⟩) E d := by
  induction l generalizing d with
  | nil => exact fun h => absurd rfl h
  | cons x l ih =>
    rw [mkpathAlong,wp_bind]
    refine System.wp_perform (fun e => ?_) fun a ch hk => ih
    dsimp only
    split
    · exact fun _ => ⟨x,mode,by simp [Disk.failed]⟩
    · exact ih

theorem wp_mkpath_reason {mode : Nat} {exist_ok : Bool} (habs : absolute s) :
    wp (mkpath sys s mode exist_ok) (fun r d' => r ≠ 0 →
      ∃ x mode, d'.log.getLast? = some ⟨.mkdir x mode,none⟩) E d := by
  have hhead : (s ++ [slash]).head? = some slash := by
    rw [List.head?_append_of_ne_nil]
    · exact habs
    · rintro rfl
      simp [absolute] at habs
  rw [mkpath]
  split
  · exact fun h => absurd rfl h
  · rw [if_neg (by simp [hhead])]
    exact wp_mkpathAlong_reason _

theorem wp_mkpathCopyPermissions_reason {exist_ok : Bool} (habs : absolute s) :
    wp (mkpathCopyPermissionsFromNearestAncestor sys s exist_ok) (fun r d' =>
      FailsForReason sys.toKernel d.fs s exist_ok r d' ↔
        ∃ x, AtOrAbove s x ∧ ((∃ st, StandsAt sys.toKernel d.fs x st) ∨ sys.ExistsAt d.fs x)) E d := by
  have hself : AtOrAbove s s := by
    refine ⟨?_,.inl rfl⟩
    rintro rfl
    simp [absolute] at habs
  rw [mkpathCopyPermissionsFromNearestAncestor,wp_bind]
  refine wp_osStat (fun letter d₁ h₁ hexists hletter => ?_) fun d₁ h₁ hno => ?_
  · have hright : ∃ x, AtOrAbove s x ∧
        ((∃ st, StandsAt sys.toKernel d.fs x st) ∨ sys.ExistsAt d.fs x) := ⟨s,hself,.inr hexists⟩
    dsimp only
    split
    · exact iff_of_true (fun h => absurd rfl h) hright
    · rename_i hfails
      refine iff_of_true (fun _ => ?_) hright
      rw [hletter] at hfails
      by_cases hdir : sys.DirAt d.fs s
      · exact .inr (.inl ⟨by simpa [hdir] using hfails,hdir⟩)
      · exact .inl ⟨s,hself,hexists,hdir⟩
  · rw [wp_bind]
    refine wp_statNearestAncestor_first habs (Nat.lt_succ_self _) (fun st x d₂ h₂ hx hst _ => ?_)
      fun d₂ h₂ hnothing => ?_
    · rw [h₁.1] at hst
      refine wp_mono (wp_mkpath_reason habs) (fun r d' hr => ?_) fun _ _ h => h
      exact iff_of_true (fun h0 => .inr (.inr (hr h0))) ⟨x,hx,.inl ⟨st,hst⟩⟩
    · rw [h₁.1] at hnothing
      have hnodir : ∀ x, AtOrAbove s x → ¬ sys.DirAt d.fs x := fun x hx hdir => by
        obtain ⟨m,hm⟩ := dirAt_iff_standsAt.mp hdir
        exact hnothing x _ hx hm
      constructor
      · intro hfails
        rcases hfails (by decide) with ⟨x,hx,hfound,-⟩ | ⟨-,hdir⟩ | ⟨x,mode,hlast⟩
        · exact ⟨x,hx,.inr hfound⟩
        · exact absurd hdir (hnodir s hself)
        · exact absurd hlast ((h₁.trans h₂).last x mode)
      · rintro ⟨x,hx,⟨st,hst⟩ | hfound⟩ _
        · exact absurd hst (hnothing x st hx)
        · exact .inl ⟨x,hx,hfound,hnodir x hx⟩

/-- Called for the same disk, the walk gives what stands nearest and the failures have their reasons just
where something stands at the path or above it, the root apart. -/
theorem nearestAncestor_right {exist_ok : Bool} (habs : absolute s) :
    wp (statNearestAncestor sys (s.length+1) s) (fun r d₁ => d₁.fs = d.fs ∧
      wp (mkpathCopyPermissionsFromNearestAncestor sys s exist_ok) (fun ret d' =>
        NearestStands sys.toKernel d.fs s r ∧ FailsForReason sys.toKernel d.fs s exist_ok ret d' ↔
          ∃ x st, AtOrAbove s x ∧ StandsAt sys.toKernel d.fs x st) E d) E d := by
  refine wp_mono (wp_statNearestAncestor_right habs) (fun r d₁ hr => ⟨hr.1,?_⟩) fun _ _ h => h
  refine wp_mono (wp_mkpathCopyPermissions_reason habs) (fun ret d' hret => ?_) fun _ _ h => h
  rw [hr.2,hret,and_iff_left_iff_imp]
  exact fun ⟨x,st,hx,hst⟩ => ⟨x,hx,.inl ⟨st,hst⟩⟩

end Functions

def onlyRoot : Disk := ⟨.onlyRoot,[],0,0⟩

theorem nearestAncestor_right_below :
    wp (statNearestAncestor System.calm 3 (text ['/','x'])) (fun r d₁ => d₁.fs = onlyRoot.fs ∧
      wp (mkpathCopyPermissionsFromNearestAncestor System.calm (text ['/','x']) true) (fun ret d' =>
        NearestStands System.calm.toKernel onlyRoot.fs (text ['/','x']) r ∧
            FailsForReason System.calm.toKernel onlyRoot.fs (text ['/','x']) true ret d' ↔
          ∃ x st, AtOrAbove (text ['/','x']) x ∧ StandsAt System.calm.toKernel onlyRoot.fs x st)
        (fun _ _ => False) onlyRoot) (fun _ _ => False) onlyRoot :=
  nearestAncestor_right (by decide)

/-- Right below the root nothing is found although the root is there. -/
theorem statNearestAncestor_below_root :
    ¬ wp (statNearestAncestor System.calm 3 (text ['/','x']))
      (fun r _ => NearestStands System.calm.toKernel onlyRoot.fs (text ['/','x']) r)
      (fun _ _ => False) onlyRoot := by
  intro h
  have hrun : wp (statNearestAncestor System.calm 3 (text ['/','x'])) (fun r _ => r = none)
      (fun _ _ => False) onlyRoot := by decide +kernel
  obtain ⟨r,d',-,hnear,rfl⟩ :=
    ok_of_wp (wp_mono (wp_and h hrun) (fun _ _ h => h) fun _ _ h => h.1)
  exact hnear

end RootHelper
