import RootHelper.Counting

/-!
What the map of the counts holds once the sources were counted: for each path met on the way, the
number of files at or below it.
-/

set_option autoImplicit false

namespace RootHelper
open Posix Control

section Counted

variable (k : Kernel) (fs : FileSystem) (readable : Str → Prop)

/-- So many files are found at or below `x` when the directories that are `readable` can be
listed, and no others. -/
inductive FilesAt : Str → Nat → Prop
  | none {x : Str} : efdAt k fs x = .none → FilesAt x 0
  | file {x : Str} : efdAt k fs x = .file → FilesAt x 1
  | unlisted {x : Str} : efdAt k fs x = .dir → ¬ (absolute x ∧ readable x) → FilesAt x 0
  | dir {x : Str} {p : Path} (f : Name → Nat) : efdAt k fs x = .dir → absolute x → readable x →
      k.follow fs x = .ok p → (∀ c ∈ fs.children p, FilesAt (x ++ slash :: c) (f c)) →
      FilesAt x ((fs.children p).map f).sum

/-- So many files are at or below `x`, whether or not its directories can be listed. -/
inductive FilesBelow : Str → Nat → Prop
  | none {x : Str} : efdAt k fs x = .none → FilesBelow x 0
  | file {x : Str} : efdAt k fs x = .file → FilesBelow x 1
  | dir {x : Str} {p : Path} (f : Name → Nat) : efdAt k fs x = .dir → k.follow fs x = .ok p →
      (∀ c ∈ fs.children p, FilesBelow (x ++ slash :: c) (f c)) →
      FilesBelow x ((fs.children p).map f).sum

/-- The paths met when `x` is counted. -/
inductive Counted (x : Str) : Str → Prop
  | start : Counted x x
  | child {y : Str} {p : Path} {c : Name} : Counted x y → efdAt k fs y = .dir → absolute y →
      readable y → k.follow fs y = .ok p → c ∈ fs.children p → Counted x (y ++ slash :: c)

end Counted

variable {k : Kernel} {fs : FileSystem} {readable : Str → Prop} {x y : Str}

theorem FilesAt.unique {n m : Nat} (h : FilesAt k fs readable x n) (h' : FilesAt k fs readable x m) :
    n = m := by
  induction h generalizing m with
  | none he => cases h' <;> simp_all
  | file he => cases h' <;> simp_all
  | unlisted he hno =>
    cases h' with
    | none he' => rfl
    | file he' => simp [he] at he'
    | unlisted _ _ => rfl
    | dir f _ habs hread _ _ => exact absurd ⟨habs,hread⟩ hno
  | @dir x p f he habs hread hp _ ih =>
    cases h' with
    | none he' => simp [he] at he'
    | file he' => simp [he] at he'
    | unlisted _ hno => exact absurd ⟨habs,hread⟩ hno
    | @dir _ p' g _ _ _ hp' hg =>
      obtain rfl : p = p' := by simpa [hp] using hp'
      have hsame : (fs.children p).map f = (fs.children p).map g :=
        List.map_congr_left fun c hc => ih c hc (hg c hc)
      rw [hsame]

/-- Below a directory that is listed everything is at or below one of its entries. -/
theorem Counted.cases_dir {p : Path} (h : Counted k fs readable x y) (hp : k.follow fs x = .ok p) :
    y = x ∨ ∃ c ∈ fs.children p, Counted k fs readable (x ++ slash :: c) y := by
  induction h with
  | start => exact .inl rfl
  | child _ he habs hread hq hc ih =>
    right
    rcases ih with rfl | ⟨c',hc',hy⟩
    · obtain rfl := Except.ok.inj (hp.symm.trans hq)
      exact ⟨_,hc,.start⟩
    · exact ⟨c',hc',.child hy he habs hread hq hc⟩

theorem Counted.cases_other (h : Counted k fs readable x y)
    (hx : ¬ (efdAt k fs x = .dir ∧ absolute x ∧ readable x)) : y = x := by
  induction h with
  | start => rfl
  | child _ he habs hread _ _ ih =>
    subst ih
    exact absurd ⟨he,habs,hread⟩ hx

theorem Counted.trans {z : Str} (h : Counted k fs readable x y) (h' : Counted k fs readable y z) :
    Counted k fs readable x z := by
  induction h' with
  | start => exact h
  | child _ he habs hread hq hc ih => exact .child ih he habs hread hq hc

theorem FilesAt.filesBelow {n : Nat} (h : FilesAt k fs readable x n)
    (hall : ∀ y, Counted k fs readable x y → efdAt k fs y = .dir → absolute y ∧ readable y) :
    FilesBelow k fs x n := by
  induction h with
  | none he => exact .none he
  | file he => exact .file he
  | unlisted he hno => exact absurd (hall _ .start he) hno
  | dir f he habs hread hp _ ih =>
    refine .dir f he hp fun c hc => ih c hc fun y hy hdir => ?_
    exact hall y (.trans (.child .start he habs hread hp hc) hy) hdir

theorem Counted.no_slash (h : Counted k fs readable x y) (hx : ¬ endsWithSlash x) :
    ¬ endsWithSlash y := by
  induction h with
  | start => exact hx
  | @child y p c _ _ _ _ _ hc _ =>
    have hproper := FileSystem.proper_of_has (FileSystem.mem_children.mp hc)
    intro hend
    have hlast : c.getLast? = some slash := by
      rwa [endsWithSlash,List.getLast?_append_of_ne_nil _ (by simp),
        List.getLast?_cons_of_ne_nil hproper.1] at hend
    exact hproper.2.1 (List.mem_of_getLast? hlast)

/-- Each call has left one event: the calls are numbered by their places in the log. -/
def Paced (d : Disk) : Prop := d.tick = d.log.length

def Pace (d d' : Disk) : Prop := Paced d → Paced d'

instance : Std.Refl Pace := ⟨fun _ => id⟩
instance : IsTrans Disk Pace := ⟨fun _ _ _ h h' => h' ∘ h⟩

/-- In what was logged a directory could be opened just when it is `readable`. -/
def OpensAgree (sys : System) (readable : Str → Prop) (log : List Event) : Prop :=
  ∀ i x, (log[i]?).map Event.call = some (.opendir x) → (sys.refuse i = none ↔ readable x)

variable {sys : System} {d d' : Disk}

theorem OpensAgree.of_prefix {log log' : List Event} (h : OpensAgree sys readable log')
    (hpre : log <+: log') : OpensAgree sys readable log := by
  intro i x hi
  obtain ⟨more,rfl⟩ := hpre
  refine h i x ?_
  have hlt : i < log.length := by
    by_contra hge
    simp [List.getElem?_eq_none (Nat.le_of_not_lt hge)] at hi
  rwa [List.getElem?_append_left hlt]

theorem Grown.log_prefix {ok : FileSystem → Event → Prop} (h : Grown ok d d') : d.log <+: d'.log := by
  obtain ⟨es,hlog,_⟩ := h
  exact ⟨es,hlog.symm⟩

theorem paced_done (e : Event) : Pace d (d.done e) := by
  intro h
  unfold Paced at *
  simp [Disk.done,h]

theorem paced_failed (c : Call) (e : Errno) : Pace d (d.failed c e) := by
  intro h
  unfold Paced at *
  simp [Disk.failed,h]

section Paces

variable {ε α : Type} {c : Call} {eff : FileSystem → Except Errno (α × Option Change)}

theorem paced_look : Moves Pace (System.look c eff : EStateM ε Disk _) := by
  intro d
  rw [Leaves,System.wp_look]
  cases eff d.fs with
  | error e => exact paced_failed c e
  | ok r => exact paced_done _

theorem paced_perform : Moves Pace (sys.perform c eff : EStateM ε Disk _) := fun _ =>
  System.wp_perform (fun e => paced_failed c e) fun _ _ _ => paced_done _

end Paces

theorem paced_existsIsFileIsDir_ (filepath : Str) : Moves Pace (existsIsFileIsDir_ sys filepath) := by
  have letter : ∀ n, Moves Pace (getPermissions sys filepath n) := by
    intro n
    cases n with
    | file content m => exact moves_pure _
    | dir m => exact moves_pure _
    | link t => exact paced_look.bind fun r => by split <;> exact moves_pure _
  have stat : Moves Pace (osStat sys filepath) := by
    refine paced_look.bind fun r => ?_
    cases r with
    | error e => exact moves_pure _
    | ok n => exact (letter n).map
  refine stat.bind fun r => ?_
  split <;> exact moves_pure _

theorem paced_efdL (path : Str) : Moves Pace (efdL sys path) := by
  refine paced_look.bind fun r => ?_
  split
  · exact paced_look.bind fun _ => moves_pure _
  · exact moves_pure _

theorem quiet_osGetSize (filepath : Str) :
    wp (osGetSize sys filepath) (fun _ d' => Quiet d d' ∧ Pace d d')
      (fun _ d' => Quiet d d' ∧ Pace d d') d := by
  have hquiet : Moves Quiet (osGetSize sys filepath) := by
    refine (System.moves_lstat filepath).bind fun r => ?_
    cases r <;> exact moves_pure _
  have hpace : Moves Pace (osGetSize sys filepath) := by
    refine paced_look.bind fun r => ?_
    cases r <;> exact moves_pure _
  exact wp_and (hquiet d) (hpace d)

theorem perform_logged {ε α : Type} {c : Call} {eff : FileSystem → Except Errno (α × Option Change)}
    {E : ε → Disk → Prop} :
    wp (sys.perform c eff) (fun _ d' => ∃ ch, d'.log = d.log ++ [⟨c,ch⟩]) E d :=
  System.wp_perform (fun _ => ⟨none,rfl⟩) fun _ ch _ => ⟨ch,rfl⟩

theorem wp_openPlain {dir : Str} {Q : Option (List (Str × Name)) → Disk → Prop}
    {E : Stop → Disk → Prop} (hd : Paced d)
    (hnone : ∀ d', Quiet d d' → Paced d' → (absolute dir → ¬ sys.Opens d dir ∧
      ∃ ch, d'.log = d.log ++ [⟨.opendir dir,ch⟩]) → Q none d')
    (hsome : ∀ entries d', Quiet d d' → Paced d' → Listable sys d dir →
      (∃ ch, d'.log = d.log ++ [⟨.opendir dir,ch⟩]) → Lists sys.toKernel d.fs dir entries →
      Q (some entries) d') : wp (openPlain sys dir) Q E d := by
  unfold openPlain
  rw [wp_ite]
  refine ⟨fun hrel => ?_,fun habs => ?_⟩
  · exact hnone _ ⟨[],by simp,.nil _⟩ hd fun habs => absurd habs hrel
  · have habs : absolute dir := by simpa using habs
    have hlogged : wp (sys.opendir dir : DiskM _)
        (fun _ d' => Pace d d' ∧ ∃ ch, d'.log = d.log ++ [⟨.opendir dir,ch⟩]) (fun _ _ => True) d := by
      rw [System.opendir,wp_bind,wp_get]
      exact wp_mono (wp_and (paced_perform d) (perform_logged (E := fun _ _ => True)))
        (fun _ _ h => h) fun _ _ _ => trivial
    have hopened : wp (sys.opendir dir : DiskM _)
        (fun r d' => Quiet d d' ∧ (∀ e, r = .error e → ¬ sys.Opens d dir) ∧
          ∀ names, r = .ok names → Listable sys d dir ∧ ∃ p, sys.follow d.fs dir = .ok p ∧
            d.fs.isDir p ∧ names.Perm (d.fs.children p)) (fun _ _ => True) d := by
      refine System.wp_opendir (fun e _ hq hno => ⟨hq,fun _ _ => hno,fun _ h => by cases h⟩) ?_
      intro p names d' hq hopens hp hdir hperm
      refine ⟨hq,?_,fun names' h => ?_⟩
      · intro e h
        cases h
      · obtain rfl := Except.ok.inj h
        exact ⟨⟨habs,hopens⟩,p,hp,hdir,hperm⟩
    have hnever : wp (sys.opendir dir : DiskM _) (fun _ _ => True) (fun _ _ => False) d :=
      System.wp_opendir (fun _ _ _ _ => trivial) fun _ _ _ _ _ _ _ _ => trivial
    rw [wp_bind]
    refine wp_mono (wp_and (wp_and hopened hlogged) hnever) (fun r d' h => ?_)
      fun _ _ h => h.2.elim
    obtain ⟨⟨⟨hq,hclosed,hopen⟩,hpace,hlog⟩,_⟩ := h
    cases r with
    | error e => exact hnone d' hq (hpace hd) fun _ => ⟨hclosed e rfl,hlog⟩
    | ok names =>
      obtain ⟨hlistable,p,hp,hdir,hperm⟩ := hopen names rfl
      refine hsome _ d' hq (hpace hd) hlistable hlog ⟨habs,p,names.reverse,hp,hdir,?_,?_⟩
      · exact (List.reverse_perm names).trans hperm
      · simp [List.map_reverse]

/-- What counting `x` makes of the map: it is right for all that was met, and stays right for what
it was right for. -/
structure CountsUp (k : Kernel) (fs : FileSystem) (readable : Str → Prop) (x : Str) (m : CountMap)
    (num : StsSz) (m' : CountMap) : Prop where
  total : FilesAt k fs readable x num.tFiles
  kept : ∀ y, FilesAt k fs readable y (m y).tFiles → FilesAt k fs readable y (m' y).tFiles
  met : ∀ y, Counted k fs readable x y → FilesAt k fs readable y (m' y).tFiles

theorem CountsUp.put {m m' : CountMap} {num : StsSz} (htotal : FilesAt k fs readable x num.tFiles)
    (hkept : ∀ y, FilesAt k fs readable y (m y).tFiles → FilesAt k fs readable y (m' y).tFiles)
    (hmet : ∀ y, Counted k fs readable x y → y ≠ x → FilesAt k fs readable y (m' y).tFiles) :
    CountsUp k fs readable x m num (Function.update m' x num) := by
  have hput : ∀ y, (y ≠ x → FilesAt k fs readable y (m' y).tFiles) →
      FilesAt k fs readable y (Function.update m' x num y).tFiles := by
    intro y hy
    by_cases hx : y = x
    · subst hx
      rwa [Function.update_self]
    · rw [Function.update_of_ne hx]
      exact hy hx
  exact ⟨htotal,fun y hy => hput y fun _ => hkept y hy,fun y hy => hput y (hmet y hy)⟩

/-- After a count that began on `d`. -/
def AfterCount (sys : System) (readable : Str → Prop) (d : Disk) (P : Prop) (d' : Disk) : Prop :=
  Quiet d d' ∧ Paced d' ∧ (OpensAgree sys readable d'.log → P)

/-- The entries of a directory, each counted from what the ones before it have left. -/
theorem countEntries_counts {count : Str → CountMap → DiskM (StsSz × CountMap)}
    (hcount : ∀ x m d, Paced d → d.fs = fs → wp (count x m)
      (fun r d' => AfterCount sys readable d (CountsUp sys.toKernel fs readable x m r.1 r.2) d')
      (fun _ _ => True) d)
    (es : List (Str × Name)) (num : StsSz) (m : CountMap) (hd : Paced d) (hfs : d.fs = fs) :
    wp (countEntries sys count es num m)
      (fun r d' => AfterCount sys readable d
        (r.1.tFiles = num.tFiles + (es.map fun e => (r.2 e.1).tFiles).sum ∧
          (∀ y, FilesAt sys.toKernel fs readable y (m y).tFiles →
            FilesAt sys.toKernel fs readable y (r.2 y).tFiles) ∧
          ∀ e ∈ es, ∀ y, Counted sys.toKernel fs readable e.1 y →
            FilesAt sys.toKernel fs readable y (r.2 y).tFiles) d')
      (fun _ _ => True) d := by
  induction es generalizing num m d with
  | nil => exact ⟨refl_of Quiet d,hd,fun _ => ⟨by simp,fun _ h => h,by simp⟩⟩
  | cons e es ih =>
    rw [countEntries,wp_bind]
    have hlook : wp (efdL sys e.1) (fun _ d' => Quiet d d' ∧ Pace d d') (fun _ _ => True) d :=
      wp_mono (wp_and (wp_efdL (E := fun _ _ => True) sys fun _ h => h) (paced_efdL e.1 d))
        (fun _ _ h => h) fun _ _ _ => trivial
    refine wp_mono hlook (fun _ d₁ h₁ => ?_) fun _ _ _ => trivial
    obtain ⟨hq₁,hp₁⟩ := h₁
    rw [wp_bind]
    refine wp_mono (hcount e.1 m d₁ (hp₁ hd) (hq₁.fs_eq.trans hfs)) (fun r d₂ h₂ => ?_)
      fun _ _ _ => trivial
    obtain ⟨subNum,m₂⟩ := r
    obtain ⟨hq₂,hp₂,hup⟩ := h₂
    have hq := trans_of Quiet hq₁ hq₂
    refine wp_mono (ih (num + subNum) m₂ hp₂ (hq.fs_eq.trans hfs)) (fun r d₃ h₃ => ?_)
      fun _ _ _ => trivial
    obtain ⟨hq₃,hp₃,hrest⟩ := h₃
    refine ⟨trans_of Quiet hq hq₃,hp₃,fun hagree => ?_⟩
    have hup := hup (hagree.of_prefix (Grown.log_prefix hq₃))
    obtain ⟨hsum,hkept,hmet⟩ := hrest hagree
    have hhead := hup.total.unique (hkept e.1 (hup.met e.1 .start))
    refine ⟨?_,fun y hy => hkept y (hup.kept y hy),fun e' he' y hy => ?_⟩
    · have hadd : (num + subNum).tFiles = num.tFiles + subNum.tFiles := rfl
      rw [hsum,hadd,hhead,List.map_cons,List.sum_cons,Nat.add_assoc]
    · rcases List.mem_cons.mp he' with rfl | he'
      · exact hkept y (hup.met y hy)
      · exact hmet e' he' y hy

theorem countTotalStatsIntoMap_counts (depth : Nat) (x : Str) (m : CountMap) {d : Disk} (hd : Paced d)
    (hfs : d.fs = fs) :
    wp (countTotalStatsIntoMap sys depth x m)
      (fun r d' => AfterCount sys readable d (CountsUp sys.toKernel fs readable x m r.1 r.2) d')
      (fun _ _ => True) d := by
  induction depth generalizing x m d with
  | zero => trivial
  | succ depth ih =>
    subst hfs
    -- short of a directory that is listed there is only the path itself
    have leaf : ∀ {num : StsSz} {m' : CountMap},
        ¬ (efdAt sys.toKernel d.fs x = .dir ∧ absolute x ∧ readable x) →
        FilesAt sys.toKernel d.fs readable x num.tFiles →
        (∀ y, FilesAt sys.toKernel d.fs readable y (m y).tFiles →
          FilesAt sys.toKernel d.fs readable y (m' y).tFiles) →
        CountsUp sys.toKernel d.fs readable x m num (Function.update m' x num) :=
      fun hx htotal hkept => .put htotal hkept fun y hy hne => absurd (hy.cases_other hx) hne
    have hlook : wp (existsIsFileIsDir_ sys x)
        (fun r d' => (r = efdAt sys.toKernel d.fs x ∧ Quiet d d') ∧ Pace d d') (fun _ _ => True) d :=
      wp_mono (wp_and (wp_existsIsFileIsDir_ (E := fun _ _ => True) fun _ h => ⟨rfl,h⟩)
        (paced_existsIsFileIsDir_ x d)) (fun _ _ h => h) fun _ _ _ => trivial
    rw [countTotalStatsIntoMap,wp_bind]
    refine wp_mono hlook (fun r d₁ h₁ => ?_) fun _ _ _ => trivial
    obtain ⟨⟨rfl,hq₁⟩,hp₁⟩ := h₁
    cases he : efdAt sys.toKernel d.fs x with
    | none => exact ⟨hq₁,hp₁ hd,fun _ => leaf (by simp [he]) (.none he) fun _ h => h⟩
    | file =>
      simp only [wp_bind]
      refine wp_mono (quiet_osGetSize x) (fun size d₂ h₂ => ?_) fun _ _ _ => trivial
      obtain ⟨hq₂,hp₂⟩ := h₂
      exact ⟨trans_of Quiet hq₁ hq₂,hp₂ (hp₁ hd),
        fun _ => leaf (by simp [he]) (.file he) fun _ h => h⟩
    | dir =>
      obtain ⟨p,mode,_,hnode,hp⟩ := efdAt_dir he
      have hpd : d.fs.isDir p := FileSystem.isDir_iff.mpr ⟨mode,hnode⟩
      simp only [wp_bind]
      refine wp_openPlain (hp₁ hd) (fun d₂ hq₂ hp₂ hclosed => ?_)
        fun entries d₂ hq₂ hp₂ hlistable hlog hlist => ?_
      · -- nothing is listed
        refine ⟨trans_of Quiet hq₁ hq₂,hp₂,fun hagree => ?_⟩
        have hno : ¬ (absolute x ∧ readable x) := by
          intro hread
          obtain ⟨hshut,ch,hlog⟩ := hclosed hread.1
          have hcall : (d₂.log[d₁.log.length]?).map Event.call = some (.opendir x) := by
            simp [hlog]
          have hgrant := (hagree _ _ hcall).mpr hread.2
          rw [← hp₁ hd] at hgrant
          rw [← hq₁.fs_eq] at hp hpd
          exact hshut ⟨hgrant,p,hp,hpd⟩
        exact leaf (fun h => hno h.2) (.unlisted he hno) fun _ h => h
      · obtain ⟨habs,p',names,hp',hpd',hperm,rfl⟩ := hlist
        rw [hq₁.fs_eq] at hp' hpd' hperm
        obtain rfl : p = p' := by simpa [hp] using hp'
        have hq := trans_of Quiet hq₁ hq₂
        refine wp_mono (countEntries_counts (fun x m d hd hfs => ih x m hd hfs) _ _ m hp₂ hq.fs_eq)
          (fun r d₃ h₃ => ?_) fun _ _ _ => trivial
        obtain ⟨hq₃,hp₃,hrest⟩ := h₃
        refine ⟨trans_of Quiet hq hq₃,hp₃,fun hagree => ?_⟩
        have hread : readable x := by
          obtain ⟨ch,hlog⟩ := hlog
          have hcall : (d₂.log[d₁.log.length]?).map Event.call = some (.opendir x) := by
            simp [hlog]
          refine (hagree.of_prefix (Grown.log_prefix hq₃) _ _ hcall).mp ?_
          rw [← hp₁ hd]
          exact hlistable.2.1
        obtain ⟨hsum,hkept,hmet⟩ := hrest hagree
        have hmet : ∀ c ∈ d.fs.children p, ∀ y,
            Counted sys.toKernel d.fs readable (x ++ slash :: c) y →
              FilesAt sys.toKernel d.fs readable y (r.2 y).tFiles := fun c hc =>
          hmet (x ++ slash :: c,c) (List.mem_map_of_mem (hperm.mem_iff.mpr hc))
        have htotal : r.1.tFiles =
            ((d.fs.children p).map fun c => (r.2 (x ++ slash :: c)).tFiles).sum := by
          rw [hsum,Nat.zero_add,Option.getD_some,List.map_map]
          exact (hperm.map _).sum_nat
        refine .put ?_ hkept fun y hy hne => ?_
        · rw [htotal]
          exact .dir _ he habs hread hp fun c hc => hmet c hc _ .start
        · rcases hy.cases_dir hp with rfl | ⟨c,hc,hy⟩
          · exact absurd rfl hne
          · exact hmet c hc y hy

end RootHelper
