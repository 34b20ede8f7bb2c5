import RootHelper.Posix.Making
import RootHelper.Utils

/-!
What `mkpath` comes to. The directories above the last one may be there already; of the last one it says
so by the error number of `mkdir` alone, whatever stands there and whoever made it.
-/

set_option autoImplicit false

namespace RootHelper
open Posix Control Kernel

/-- Nothing has changed but that missing directories have been made, each at one of the paths. -/
def OnlyMade (k : Kernel) (n : Node) (l : List Str) (fs fs' : FileSystem) : Prop :=
  ∀ q, fs'.node q = fs.node q ∨
    (fs.node q = none ∧ fs'.node q = some n ∧ ∃ x ∈ l, k.glance fs' x = .ok q)

/-- The paths `mkdir` is called with. -/
def mkpathPaths (s : Str) : List Str := partialPaths s ++ [s]

/-- The result says whether the path is a directory now and, if it has to be new, was nothing before;
and only what was missing has been made. -/
structure MkpathRight (sys : System) (s : Str) (mode : Nat) (exist_ok : Bool) (d : Disk) (ret : Int)
    (d' : Disk) : Prop where
  result : ret = 0 ↔
    sys.DirAt d'.fs s ∧ (exist_ok = false → ¬ sys.ExistsAt d.fs s)
  onlyMade : OnlyMade sys.toKernel (.dir (sys.masked mode)) (mkpathPaths s) d.fs d'.fs

section Above

variable (k : Kernel) (n : Node)

def withMade : List Str → FileSystem → FileSystem
  | [], fs => fs
  | x :: l, fs =>
    match k.makeEffect x n fs with
    | .ok ((p,c),_) => withMade l ((Change.put p c n).apply fs)
    | .error .EEXIST => withMade l fs
    | .error _ => fs

end Above

def HonestRefusals (sys : System) (mode : Nat) (t : Nat) (l : List Str) (fs : FileSystem) : Prop :=
  ∀ j x, l[j]? = some x → ∀ e, sys.refuse (t + j) = some e →
    e ≠ .EEXIST ∧ ¬ sys.Taken (withMade sys.toKernel (.dir (sys.masked mode)) (l.take j) fs) x

def SomeRefused (sys : System) (t : Nat) (l : List Str) : Prop :=
  ∃ j < l.length, sys.refuse (t + j) ≠ none

/-- Where the result is right: no root that has to be new; and either a call is refused on the way, or,
once the directories above have been made, what stands at the path is a directory, and one that was
there before if it has to be new. -/
def MkpathCondition (sys : System) (s : Str) (mode : Nat) (exist_ok : Bool) (d : Disk) : Prop :=
  let above := withMade sys.toKernel (.dir (sys.masked mode)) (partialPaths s) d.fs
  (exist_ok = false → s ≠ [slash]) ∧ (SomeRefused sys d.tick (mkpathPaths s) ∨
    if exist_ok then sys.Taken above s → sys.DirAt above s
    else sys.DirAt above s → sys.ExistsAt d.fs s)

section Along

variable {k : Kernel} {n : Node} {l l' : List Str} {fs fs' fs'' : FileSystem}

theorem OnlyMade.refl (k : Kernel) (n : Node) (l : List Str) (fs : FileSystem) : OnlyMade k n l fs fs :=
  fun _ => .inl rfl

theorem OnlyMade.le (h : OnlyMade k n l fs fs') : fs.Le fs' := by
  intro q nd hq
  rcases h q with heq | ⟨hnone,-⟩
  · rw [heq,hq]
  · rw [hnone] at hq
    cases hq

theorem OnlyMade.trans (h : OnlyMade k n l fs fs') (h' : OnlyMade k n l' fs' fs'') :
    OnlyMade k n (l ++ l') fs fs'' := by
  intro q
  rcases h' q with heq' | ⟨hnone',hn',x,hx,hglance'⟩
  · rcases h q with heq | ⟨hnone,hn,x,hx,hglance⟩
    · exact .inl (heq'.trans heq)
    · exact .inr ⟨hnone,heq'.trans hn,x,List.mem_append_left _ hx,glance_le h'.le hglance⟩
  · rcases h q with heq | ⟨-,hn,-⟩
    · exact .inr ⟨heq.symm.trans hnone',hn',x,List.mem_append_right _ hx,hglance'⟩
    · rw [hn] at hnone'
      cases hnone'

theorem onlyMade_put {x : Str} {p : Path} {c : Name} {m : Nat} (h : k.spot fs x = .ok (.name p c))
    (hfree : ¬ fs.has (p ++ [c])) :
    OnlyMade k (.dir m) [x] fs ((Change.put p c (.dir m)).apply fs) := by
  intro q
  rw [Change.node_put (FileSystem.canPut_free (spot_name h) hfree)]
  by_cases hq : q = p ++ [c]
  · subst hq
    rw [if_pos rfl]
    exact .inr ⟨FileSystem.node_of_not_has hfree,rfl,x,by simp,glance_put h hfree⟩
  · rw [if_neg hq]
    exact .inl rfl

theorem le_withMade (k : Kernel) (n : Node) (l : List Str) (fs : FileSystem) :
    fs.Le (withMade k n l fs) := by
  induction l generalizing fs with
  | nil => exact .refl fs
  | cons x l ih =>
    rw [withMade]
    split
    · rename_i p c ch hmake
      obtain ⟨-,hspot,hfree⟩ := makeEffect_ok hmake
      exact (FileSystem.put_le (spot_name hspot) hfree).trans (ih _)
    · exact ih fs
    · exact .refl fs

end Along

section Run

variable {sys : System} {s : Str} {mode : Nat} {exist_ok : Bool} {d d' : Disk} {init : List Str}
  {E : Stop → Disk → Prop}

/-- How the calls for a path and those above it come to an end. -/
inductive MkpathEnd (sys : System) (s : Str) (mode : Nat) (exist_ok : Bool) (init : List Str) (d : Disk)
    (r : Int) (d' : Disk) : Prop
  | stopped (x : Str) : x ∈ init ++ [s] → r = -1 → ¬ sys.Taken d'.fs x →
      (SomeRefused sys d.tick (init ++ [s]) ∨
        d'.fs = withMade sys.toKernel (.dir (sys.masked mode)) init d.fs) →
      MkpathEnd sys s mode exist_ok init d r d'
  | taken : ¬ SomeRefused sys d.tick (init ++ [s]) →
      d'.fs = withMade sys.toKernel (.dir (sys.masked mode)) init d.fs → sys.Taken d'.fs s →
      r = (if exist_ok then 0 else -1) → MkpathEnd sys s mode exist_ok init d r d'
  | made (fs : FileSystem) (p : Path) (c : Name) : ¬ SomeRefused sys d.tick (init ++ [s]) →
      fs = withMade sys.toKernel (.dir (sys.masked mode)) init d.fs →
      sys.spot fs s = .ok (.name p c) → ¬ fs.has (p ++ [c]) →
      d'.fs = (Change.put p c (.dir (sys.masked mode))).apply fs → r = 0 →
      MkpathEnd sys s mode exist_ok init d r d'

theorem someRefused_cons {t : Nat} {x : Str} {l : List Str} (h : sys.refuse t = none) :
    SomeRefused sys t (x :: l) ↔ SomeRefused sys (t+1) l := by
  constructor
  · rintro ⟨j,hj,hne⟩
    cases j with
    | zero => exact absurd h hne
    | succ j =>
      refine ⟨j,by simpa using hj,?_⟩
      rwa [Nat.add_right_comm,Nat.add_assoc]
  · rintro ⟨j,hj,hne⟩
    refine ⟨j+1,by simpa using hj,?_⟩
    rwa [← Nat.add_assoc,Nat.add_right_comm]

theorem HonestRefusals.tail {t : Nat} {x : Str} {l : List Str} {fs fs' : FileSystem}
    (h : HonestRefusals sys mode t (x :: l) fs)
    (hfs : ∀ l', withMade sys.toKernel (.dir (sys.masked mode)) (x :: l') fs =
      withMade sys.toKernel (.dir (sys.masked mode)) l' fs') :
    HonestRefusals sys mode (t+1) l fs' := by
  intro j y hy e he
  have hj := h (j+1) y (by simpa using hy) e (by rwa [← Nat.add_assoc,Nat.add_right_comm])
  rwa [List.take_succ_cons,hfs] at hj

theorem MkpathEnd.cons {x : Str} {r : Int} {d₁ : Disk} (hgrant : sys.refuse d.tick = none)
    (htick : d₁.tick = d.tick + 1)
    (hfs : withMade sys.toKernel (.dir (sys.masked mode)) (x :: init) d.fs =
      withMade sys.toKernel (.dir (sys.masked mode)) init d₁.fs)
    (h : MkpathEnd sys s mode exist_ok init d₁ r d') :
    MkpathEnd sys s mode exist_ok (x :: init) d r d' := by
  have hrefused : SomeRefused sys d.tick (x :: init ++ [s]) ↔ SomeRefused sys d₁.tick (init ++ [s]) := by
    rw [htick]
    exact someRefused_cons hgrant
  cases h with
  | stopped y hy hr htaken hor =>
    refine .stopped y (List.mem_cons_of_mem _ hy) hr htaken ?_
    rwa [hrefused,hfs]
  | taken hno heq htaken hr =>
    refine .taken ?_ ?_ htaken hr
    · rwa [hrefused]
    · rwa [hfs]
  | made fs p c hno heq hspot hfree hd' hr =>
    refine .made fs p c ?_ ?_ hspot hfree hd' hr
    · rwa [hrefused]
    · rwa [hfs]

theorem wp_mkdir {x : Str} (hx : absolute (cstr x))
    (hhonest : ∀ e, sys.refuse d.tick = some e → e ≠ .EEXIST ∧ ¬ sys.Taken d.fs x)
    {Q : Except Errno (Path × Name) → Disk → Prop}
    (hstop : ∀ e d₁, d₁.fs = d.fs → e ≠ .EEXIST → ¬ sys.Taken d.fs x →
      (sys.refuse d.tick ≠ none ∨
        ∀ l, withMade sys.toKernel (.dir (sys.masked mode)) (x :: l) d.fs = d.fs) → Q (.error e) d₁)
    (htaken : ∀ d₁, d₁.fs = d.fs → d₁.tick = d.tick + 1 → sys.refuse d.tick = none →
      sys.Taken d.fs x → (∀ l, withMade sys.toKernel (.dir (sys.masked mode)) (x :: l) d.fs =
        withMade sys.toKernel (.dir (sys.masked mode)) l d.fs) → Q (.error .EEXIST) d₁)
    (hmade : ∀ p c d₁, d₁.fs = (Change.put p c (.dir (sys.masked mode))).apply d.fs →
      d₁.tick = d.tick + 1 → sys.refuse d.tick = none → sys.spot d.fs x = .ok (.name p c) →
      ¬ d.fs.has (p ++ [c]) → (∀ l, withMade sys.toKernel (.dir (sys.masked mode)) (x :: l) d.fs =
        withMade sys.toKernel (.dir (sys.masked mode)) l d₁.fs) → Q (.ok (p,c)) d₁) :
    wp (sys.mkdir x mode) Q E d := by
  cases hrefuse : sys.refuse d.tick with
  | some e =>
    obtain ⟨hne,hfree⟩ := hhonest e hrefuse
    simp only [System.mkdir,System.perform,wp_bind,wp_get,hrefuse,System.wp_settle,System.settled]
    exact hstop e _ rfl hne hfree (.inl (by simp [hrefuse]))
  | none =>
    rw [System.mkdir,System.wp_perform_granted hrefuse]
    cases hmake : sys.makeEffect x (.dir (sys.masked mode)) d.fs with
    | error e =>
      by_cases he : e = .EEXIST
      · subst he
        exact htaken _ rfl rfl hrefuse ((makeEffect_eq_taken hx).mp hmake)
          fun l => by rw [withMade,hmake]
      · refine hstop e _ rfl he (fun hno => he ?_) (.inr fun l => ?_)
        · have hex := (makeEffect_eq_taken (n := .dir (sys.masked mode)) hx).mpr hno
          rw [hmake] at hex
          exact Except.error.inj hex
        · rw [withMade,hmake]
          cases e <;> first | rfl | exact absurd rfl he
    | ok r =>
      obtain ⟨⟨p,c⟩,ch⟩ := r
      obtain ⟨rfl,hspot,hfree⟩ := makeEffect_ok hmake
      exact hmade p c _ rfl rfl hrefuse hspot hfree fun l => by rw [withMade,hmake]; rfl

theorem wp_mkpathAlong_end (hs : absolute (cstr s)) (hinit : ∀ x ∈ init, absolute (cstr x))
    (hhonest : HonestRefusals sys mode d.tick (init ++ [s]) d.fs) :
    wp (mkpathAlong sys mode exist_ok (init ++ [s])) (fun r d' =>
      MkpathEnd sys s mode exist_ok init d r d' ∧
        OnlyMade sys.toKernel (.dir (sys.masked mode)) (init ++ [s]) d.fs d'.fs) E d := by
  induction init generalizing d with
  | nil =>
    rw [List.nil_append,mkpathAlong,wp_bind]
    refine wp_mkdir hs (hhonest 0 s rfl) ?_ ?_ ?_
    · intro e d₁ hfs hne hfree hwhy
      dsimp only
      rw [if_pos (.inr hne)]
      refine ⟨.stopped s (by simp) rfl (by rwa [hfs]) ?_,by rw [hfs]; exact .refl _ _ _ _⟩
      rcases hwhy with hrefused | -
      · exact .inl ⟨0,by simp,hrefused⟩
      · exact .inr hfs
    · intro d₁ hfs _ hgrant htaken _
      have hno : ¬ SomeRefused sys d.tick ([] ++ [s]) := by
        rintro ⟨j,hj,hne⟩
        obtain rfl : j = 0 := by simpa using hj
        exact hne hgrant
      have honly : OnlyMade sys.toKernel (.dir (sys.masked mode)) ([] ++ [s]) d.fs d₁.fs := by
        rw [hfs]
        exact .refl _ _ _ _
      cases exist_ok with
      | true =>
        dsimp only
        rw [if_neg (by simp)]
        exact ⟨.taken hno hfs (by rwa [hfs]) rfl,honly⟩
      | false =>
        dsimp only
        rw [if_pos (.inl ⟨rfl,rfl⟩)]
        exact ⟨.taken hno hfs (by rwa [hfs]) rfl,honly⟩
    · intro p c d₁ hfs _ hgrant hspot hfree _
      have hno : ¬ SomeRefused sys d.tick ([] ++ [s]) := by
        rintro ⟨j,hj,hne⟩
        obtain rfl : j = 0 := by simpa using hj
        exact hne hgrant
      exact ⟨.made d.fs p c hno rfl hspot hfree hfs rfl,by rw [hfs]; exact onlyMade_put hspot hfree⟩
  | cons x init ih =>
    have hrest : ∀ y ∈ init, absolute (cstr y) := fun y hy => hinit y (List.mem_cons_of_mem _ hy)
    rw [List.cons_append,mkpathAlong,wp_bind]
    refine wp_mkdir (hinit x List.mem_cons_self) (hhonest 0 x rfl) ?_ ?_ ?_
    · intro e d₁ hfs hne hfree hwhy
      dsimp only
      rw [if_pos (.inr hne)]
      refine ⟨.stopped x (by simp) rfl (by rwa [hfs]) ?_,by rw [hfs]; exact .refl _ _ _ _⟩
      rcases hwhy with hrefused | hmade
      · exact .inl ⟨0,by simp,hrefused⟩
      · exact .inr (hfs.trans (hmade init).symm)
    · intro d₁ hfs htick hgrant _ hmade
      dsimp only
      rw [if_neg (by simp)]
      have hhonest' : HonestRefusals sys mode d₁.tick (init ++ [s]) d₁.fs := by
        rw [htick,hfs]
        exact hhonest.tail hmade
      refine wp_mono (ih hrest hhonest') (fun r d' hr => ?_) fun _ _ h => h
      refine ⟨hr.1.cons hgrant htick (by rw [hmade,hfs]),?_⟩
      have honly := hr.2
      rw [hfs] at honly
      exact (OnlyMade.refl _ _ [x] _).trans honly
    · intro p c d₁ hfs htick hgrant hspot hfree hmade
      have hhonest' : HonestRefusals sys mode d₁.tick (init ++ [s]) d₁.fs := by
        rw [htick]
        exact hhonest.tail hmade
      refine wp_mono (ih hrest hhonest') (fun r d' hr => ?_) fun _ _ h => h
      have hput := onlyMade_put (m := sys.masked mode) hspot hfree
      rw [← hfs] at hput
      exact ⟨hr.1.cons hgrant htick (hmade init),hput.trans hr.2⟩

theorem absolute_before {x y : Str} (hx : x ≠ []) (h : absolute (x ++ y)) : absolute x := by
  obtain ⟨b,x,rfl⟩ := List.exists_cons_of_ne_nil hx
  exact h

theorem not_taken_of_above (habs : absolute s) {fs : FileSystem} {x : Str} (hx : x ∈ mkpathPaths s)
    (h : ¬ sys.Taken fs x) : ¬ sys.Taken fs s := by
  rw [mkpathPaths,List.mem_append,List.mem_singleton] at hx
  rcases hx with hx | rfl
  · obtain ⟨hne,y,rfl⟩ := mem_partialPaths hx
    exact fun hs => h (hs.above (absolute_before hne habs))
  · exact h

theorem MkpathEnd.right (habs : absolute s) (hroot : s ≠ [slash]) {r : Int}
    (h : MkpathEnd sys s mode exist_ok (partialPaths s) d r d')
    (honly : OnlyMade sys.toKernel (.dir (sys.masked mode)) (mkpathPaths s) d.fs d'.fs) :
    MkpathRight sys s mode exist_ok d r d' ↔ MkpathCondition sys s mode exist_ok d := by
  have hc := absolute_cstr habs
  have hiff : MkpathRight sys s mode exist_ok d r d' ↔
      (r = 0 ↔ sys.DirAt d'.fs s ∧ (exist_ok = false → ¬ sys.ExistsAt d.fs s)) :=
    ⟨fun h => h.result,fun h => ⟨h,honly⟩⟩
  have hcond : MkpathCondition sys s mode exist_ok d ↔ (SomeRefused sys d.tick (mkpathPaths s) ∨ _) :=
    and_iff_right fun _ => hroot
  rw [hiff,hcond]
  cases h with
  | stopped x hx hr htaken hor =>
    have hfree := not_taken_of_above habs hx htaken
    have hno : ¬ sys.DirAt d'.fs s := fun hd => hfree (hd.taken hc)
    have hleft : (r = 0 ↔ sys.DirAt d'.fs s ∧ (exist_ok = false → ¬ sys.ExistsAt d.fs s)) := by
      rw [hr]
      simp [hno]
    refine iff_of_true hleft ?_
    rcases hor with hrefused | hfs
    · exact .inl hrefused
    · refine .inr ?_
      rw [← hfs]
      cases exist_ok with
      | true => exact fun ht => absurd ht hfree
      | false => exact fun hd => absurd hd hno
  | taken hrefused hfs htaken hr =>
    have hcalls : ¬ SomeRefused sys d.tick (mkpathPaths s) := hrefused
    rw [← hfs,hr]
    simp only [hcalls,false_or]
    cases exist_ok with
    | true => simp [htaken]
    | false => simp
  | made fs p c hrefused hfs hspot hfree hd' hr =>
    have hcalls : ¬ SomeRefused sys d.tick (mkpathPaths s) := hrefused
    have hdir : sys.DirAt d'.fs s := by
      rw [hd']
      exact dirAt_put hspot hfree
    have hnone : ¬ sys.Taken fs s := by
      rintro ⟨sp,hsp,hhas⟩
      rw [hspot] at hsp
      obtain rfl := Except.ok.inj hsp
      exact hfree hhas
    rw [← hfs,hr]
    simp only [hcalls,hdir,true_and,true_iff,false_or]
    cases exist_ok with
    | true => simp [hnone]
    | false =>
      have hbefore : ¬ sys.ExistsAt d.fs s := by
        intro he
        have hle := le_withMade sys.toKernel (.dir (sys.masked mode)) (partialPaths s) d.fs
        rw [← hfs] at hle
        exact hnone ((he.mono hle).taken hc)
      have hnodir : ¬ sys.DirAt fs s := fun h => hnone (h.taken hc)
      simp [hbefore,hnodir]

/-- The result of `mkpath` is right just when the condition holds; only missing directories on the way
are made in any case. -/
theorem mkpath_right (habs : absolute s)
    (hhonest : HonestRefusals sys mode d.tick (mkpathPaths s) d.fs) :
    wp (mkpath sys s mode exist_ok) (fun r d' =>
      OnlyMade sys.toKernel (.dir (sys.masked mode)) (mkpathPaths s) d.fs d'.fs ∧
        (MkpathRight sys s mode exist_ok d r d' ↔ MkpathCondition sys s mode exist_ok d)) E d := by
  have hne : s ≠ [] := by
    rintro rfl
    simp [absolute] at habs
  have hdot : s ≠ [dot] := by
    rintro rfl
    exact absurd habs (by decide)
  have hhead : (s ++ [slash]).head? = some slash := by
    rw [List.head?_append_of_ne_nil _ hne]
    exact habs
  rw [mkpath]
  by_cases hroot : s = [slash]
  · subst hroot
    rw [if_pos (.inr rfl)]
    have honly := OnlyMade.refl sys.toKernel (.dir (sys.masked mode)) (mkpathPaths [slash]) d.fs
    have hfollow : sys.follow d.fs [slash] = .ok [] := follow_root
    have hdir : sys.DirAt d.fs [slash] := ⟨[],hfollow,d.fs.root⟩
    have hexists : sys.ExistsAt d.fs [slash] := ⟨[],hfollow,d.fs.has_root⟩
    refine ⟨honly,?_⟩
    have hpaths : partialPaths [slash] = [] := by decide
    cases exist_ok with
    | true =>
      refine iff_of_true ⟨by simp [hdir],honly⟩ ⟨by simp,.inr ?_⟩
      rw [hpaths]
      exact fun _ => hdir
    | false =>
      refine iff_of_false (fun h => ?_) fun h => h.1 rfl rfl
      exact (h.result.mp rfl).2 rfl hexists
  · have hall : ∀ x ∈ partialPaths s, absolute (cstr x) := fun x hx => by
      obtain ⟨hx,y,heq⟩ := mem_partialPaths hx
      exact absolute_cstr (absolute_before hx (heq ▸ habs))
    rw [if_neg (by simp [hdot,hroot]),if_neg (by simp [hhead]),partialPaths_append_slash hne]
    refine wp_mono (wp_mkpathAlong_end (absolute_cstr habs) hall hhonest) (fun r d' hr => ?_)
      fun _ _ h => h
    exact ⟨hr.2,hr.1.right habs hroot hr.2⟩

end Run

def emptyRoot : Disk := ⟨.onlyRoot,[],0,0⟩

theorem mkpath_right_new :
    wp (mkpath System.calm (text ['/','a','/','b']) 0o755 false) (fun r d' =>
      OnlyMade System.calm.toKernel (.dir (System.calm.masked 0o755))
          (mkpathPaths (text ['/','a','/','b'])) emptyRoot.fs d'.fs ∧
        (MkpathRight System.calm (text ['/','a','/','b']) 0o755 false emptyRoot r d' ↔
          MkpathCondition System.calm (text ['/','a','/','b']) 0o755 false emptyRoot))
      (fun _ _ => False) emptyRoot :=
  mkpath_right (by decide) fun j x hx e he => by cases he

/-- With a slash behind it a new directory is said to be there already. -/
theorem mkpath_slash_behind :
    ¬ wp (mkpath System.calm (text ['/','a','/']) 0o755 false)
      (MkpathRight System.calm (text ['/','a','/']) 0o755 false emptyRoot) (fun _ _ => False)
      emptyRoot := by
  intro h
  have hrun : wp (mkpath System.calm (text ['/','a','/']) 0o755 false) (fun r d' => r = -1 ∧
      System.calm.follow d'.fs (text ['/','a','/']) = .ok [text ['a']] ∧ d'.fs.isDir [text ['a']])
      (fun _ _ => False) emptyRoot := by decide +kernel
  have hbefore : ¬ System.calm.ExistsAt emptyRoot.fs (text ['/','a','/']) := by
    rintro ⟨q,hq,-⟩
    have hno : System.calm.glance emptyRoot.fs (text ['/','a','/']) = .error .ENOENT := by
      decide +kernel
    rw [hno] at hq
    cases hq
  obtain ⟨r,d',-,hright,hr,hfollow,hdir⟩ :=
    ok_of_wp (wp_mono (wp_and h hrun) (fun _ _ h => h) fun _ _ h => h.1)
  have hzero := hright.result.mpr ⟨⟨_,hfollow,hdir⟩,fun _ => hbefore⟩
  omega

end RootHelper
