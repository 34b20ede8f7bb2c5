import RootHelper.CopyQuestions
import RootHelper.FileAccounts

/-!
The counts a skip is told with. They are looked up under the path on the stack, and stand in the map under
the path the count has met: the two are spelled alike as long as nothing is listed but directories whose
paths do not end in a slash.
-/

set_option autoImplicit false

namespace RootHelper
open Posix Control

/-! ### The keys of the map -/

section Keys

variable {readable : Str → Prop} {fs : FileSystem} {sys : System} {env : CopyEnv}

/-- After a count that began on `d`, and what it has noted behind `log`. -/
def AfterNoting (sys : System) (readable : Str → Prop) (d : Disk) (log : List CopyCall)
    (met : Str → Prop) (s : Disk × List CopyCall) : Prop :=
  AfterCount sys readable d (∀ y, met y → .counted y ∈ s.2) s.1 ∧ log <+: s.2

theorem AfterNoting.mono {d : Disk} {log : List CopyCall} {met met' : Str → Prop}
    {s : Disk × List CopyCall} (h : AfterNoting sys readable d log met s) (hmet : ∀ y, met' y → met y) :
    AfterNoting sys readable d log met' s := by
  obtain ⟨⟨hq,hp,hall⟩,hlog⟩ := h
  exact ⟨⟨hq,hp,fun hagree y hy => hall hagree y (hmet y hy)⟩,hlog⟩

theorem AfterNoting.trans {d : Disk} {log : List CopyCall} {met met' : Str → Prop}
    {s t : Disk × List CopyCall} (h : AfterNoting sys readable d log met s)
    (h' : AfterNoting sys readable s.1 s.2 met' t) :
    AfterNoting sys readable d log (fun y => met y ∨ met' y) t := by
  obtain ⟨⟨hq,_,hall⟩,hlog⟩ := h
  obtain ⟨⟨hq',hp',hall'⟩,hlog'⟩ := h'
  refine ⟨⟨trans_of Quiet hq hq',hp',fun hagree y hy => ?_⟩,hlog.trans hlog'⟩
  rcases hy with hy | hy
  · exact hlog'.subset (hall (hagree.of_prefix (Grown.log_prefix hq')) y hy)
  · exact hall' hagree y hy

theorem AfterNoting.of_quiet {d d₁ : Disk} {log : List CopyCall} {met : Str → Prop}
    {t : Disk × List CopyCall} (hq : Quiet d d₁) (h : AfterNoting sys readable d₁ log met t) :
    AfterNoting sys readable d log met t := by
  obtain ⟨⟨hq',hp',hall⟩,hlog⟩ := h
  exact ⟨⟨trans_of Quiet hq hq',hp',hall⟩,hlog⟩

theorem countEntries_noted {count : Str → CountMap → Traced.CountM (StsSz × CountMap)}
    (hcount : ∀ x m d log, Paced d → d.fs = fs → wp (count x m)
      (fun _ s => AfterNoting sys readable d log (Counted sys.toKernel fs readable x) s)
      (fun _ _ => True) (d,log))
    (es : List (Str × Name)) (num : StsSz) (m : CountMap) {d : Disk} {log : List CopyCall}
    (hd : Paced d) (hfs : d.fs = fs) :
    wp (Traced.countEntries sys count es num m)
      (fun _ s => AfterNoting sys readable d log
        (fun y => ∃ e ∈ es, Counted sys.toKernel fs readable e.1 y) s) (fun _ _ => True) (d,log) := by
  induction es generalizing num m d log with
  | nil => exact ⟨⟨refl_of Quiet d,hd,fun _ y hy => by simp at hy⟩,List.prefix_rfl⟩
  | cons e es ih =>
    rw [Traced.countEntries,wp_bind,wp_plain]
    have hlook : wp (efdL sys e.1) (fun _ d' => Quiet d d' ∧ Pace d d') (fun _ _ => True) d :=
      wp_mono (wp_and (wp_efdL (E := fun _ _ => True) sys fun _ h => h) (paced_efdL e.1 d))
        (fun _ _ h => h) fun _ _ _ => trivial
    refine wp_mono hlook (fun _ d₁ h₁ => ?_) fun _ _ _ => trivial
    obtain ⟨hq₁,hp₁⟩ := h₁
    rw [wp_bind]
    refine wp_mono (hcount e.1 m d₁ log (hp₁ hd) (hq₁.fs_eq.trans hfs)) (fun r s₂ h₂ => ?_)
      fun _ _ _ => trivial
    have hfs₂ : s₂.1.fs = fs := h₂.1.1.fs_eq.trans (hq₁.fs_eq.trans hfs)
    refine wp_mono (ih (num + r.1) r.2 h₂.1.2.1 hfs₂) (fun _ s₃ h₃ => ?_) fun _ _ _ => trivial
    refine ((h₂.of_quiet hq₁).trans h₃).mono fun y hy => ?_
    obtain ⟨e',he',hy⟩ := hy
    rcases List.mem_cons.mp he' with rfl | he'
    · exact .inl hy
    · exact .inr ⟨e',he',hy⟩

theorem wp_put {x : Str} {num : StsSz} {m : CountMap} {d : Disk} {log : List CopyCall}
    {s : Disk × List CopyCall} (hq : Quiet d s.1) (hp : Paced s.1) (hlog : log <+: s.2) {met : Str → Prop}
    (hmet : OpensAgree sys readable s.1.log → ∀ y, met y → y = x ∨ .counted y ∈ s.2) :
    wp (Traced.put x num m) (fun _ t => AfterNoting sys readable d log met t) (fun _ _ => True) s := by
  rw [Traced.put,wp_bind,wp_note,wp_pure]
  refine ⟨⟨hq,hp,fun hagree y hy => ?_⟩,hlog.trans (List.prefix_append _ _)⟩
  rcases hmet hagree y hy with rfl | hold
  · exact List.mem_append_right _ List.mem_cons_self
  · exact List.mem_append_left _ hold

theorem countTotalStatsIntoMap_noted (depth : Nat) (x : Str) (m : CountMap) {d : Disk}
    {log : List CopyCall} (hd : Paced d) (hfs : d.fs = fs) :
    wp (Traced.countTotalStatsIntoMap sys depth x m)
      (fun _ s => AfterNoting sys readable d log (Counted sys.toKernel fs readable x) s)
      (fun _ _ => True) (d,log) := by
  induction depth generalizing x m d log with
  | zero => trivial
  | succ depth ih =>
    subst hfs
    have hlook : wp (existsIsFileIsDir_ sys x)
        (fun r d' => (r = efdAt sys.toKernel d.fs x ∧ Quiet d d') ∧ Pace d d') (fun _ _ => True) d :=
      wp_mono (wp_and (wp_existsIsFileIsDir_ (E := fun _ _ => True) fun _ h => ⟨rfl,h⟩)
        (paced_existsIsFileIsDir_ x d)) (fun _ _ h => h) fun _ _ _ => trivial
    rw [Traced.countTotalStatsIntoMap,wp_bind,wp_plain]
    refine wp_mono hlook (fun r d₁ h₁ => ?_) fun _ _ _ => trivial
    obtain ⟨⟨rfl,hq₁⟩,hp₁⟩ := h₁
    -- short of a directory that is listed there is only the path itself
    have leaf : ∀ {y : Str}, ¬ (efdAt sys.toKernel d.fs x = .dir ∧ absolute x ∧ readable x) →
        Counted sys.toKernel d.fs readable x y → y = x := fun hx hy => hy.cases_other hx
    cases he : efdAt sys.toKernel d.fs x with
    | none =>
      exact wp_put hq₁ (hp₁ hd) List.prefix_rfl fun _ y hy => .inl (leaf (by simp [he]) hy)
    | file =>
      simp only [wp_bind,wp_plain]
      refine wp_mono (quiet_osGetSize x) (fun size d₂ h₂ => ?_) fun _ _ _ => trivial
      obtain ⟨hq₂,hp₂⟩ := h₂
      exact wp_put (trans_of Quiet hq₁ hq₂) (hp₂ (hp₁ hd)) List.prefix_rfl
        fun _ y hy => .inl (leaf (by simp [he]) hy)
    | dir =>
      obtain ⟨p,mode,_,hnode,hp⟩ := efdAt_dir he
      have hpd : d.fs.isDir p := FileSystem.isDir_iff.mpr ⟨mode,hnode⟩
      simp only [wp_bind,wp_plain]
      refine wp_openPlain (hp₁ hd) (fun d₂ hq₂ hp₂ hclosed => ?_)
        fun entries d₂ hq₂ hp₂ hlistable hlog hlist => ?_
      · -- nothing is listed
        rw [Option.getD_none,Traced.countEntries,wp_pure]
        refine wp_put (trans_of Quiet hq₁ hq₂) hp₂ List.prefix_rfl fun hagree y hy => ?_
        refine .inl (leaf (fun hread => ?_) hy)
        obtain ⟨hshut,ch,hlog⟩ := hclosed hread.2.1
        have hcall : (d₂.log[d₁.log.length]?).map Event.call = some (.opendir x) := by simp [hlog]
        have hgrant := (hagree _ _ hcall).mpr hread.2.2
        rw [← hp₁ hd] at hgrant
        rw [← hq₁.fs_eq] at hp hpd
        exact hshut ⟨hgrant,p,hp,hpd⟩
      · obtain ⟨_,p',names,hp',_,hperm,rfl⟩ := hlist
        rw [hq₁.fs_eq] at hp' hperm
        obtain rfl : p = p' := by simpa [hp] using hp'
        have hq := trans_of Quiet hq₁ hq₂
        have hentries := @countEntries_noted readable d.fs sys _ (fun x m d log hd hfs => ih x m hd hfs)
          (names.map fun c => (x ++ slash :: c,c)) ⟨0,1,0⟩ m d₂ log hp₂ hq.fs_eq
        refine wp_mono hentries (fun r s₃ h₃ => ?_) fun _ _ _ => trivial
        obtain ⟨⟨hq₃,hp₃,hall⟩,hlog₃⟩ := h₃
        refine wp_put (trans_of Quiet hq hq₃) hp₃ hlog₃ fun hagree y hy => ?_
        rcases hy.cases_dir hp with rfl | ⟨c,hc,hy⟩
        · exact .inl rfl
        · refine .inr (hall hagree y ⟨(x ++ slash :: c,c),?_,hy⟩)
          exact List.mem_map_of_mem (hperm.mem_iff.mpr hc)

theorem populateStackFromCopyList_noted (depth : Nat) (pairs : List Pair) {s : CopyState}
    {log : List CopyCall} (hs : Paced s.disk) :
    wp (Traced.populateStackFromCopyList env depth pairs)
      (fun _ t => AfterNoting env.toSystem readable s.disk log
        (fun y => ∃ x ∈ pairs, Counted env.toKernel s.disk.fs readable x.1 y) (t.1.disk,t.2))
      (fun _ _ => True) (s,log) := by
  induction pairs generalizing s log with
  | nil => exact ⟨⟨refl_of Quiet s.disk,hs,fun _ y hy => by simp at hy⟩,List.prefix_rfl⟩
  | cons x copyList ih =>
    have hcount := @countTotalStatsIntoMap_noted readable s.disk.fs env.toSystem depth x.1
      s.descendantCountMap s.disk log hs rfl
    rw [Traced.populateStackFromCopyList,wp_bind,wp_plain,wp_get,wp_bind,wp_run]
    refine wp_mono hcount (fun r t ht => ?_) fun _ _ _ => trivial
    simp only [wp_bind,wp_plain,wp_modify,push]
    refine wp_mono (ih ht.1.2.1) (fun _ u hu => ?_) fun _ _ _ => trivial
    have hfs : t.1.fs = s.disk.fs := ht.1.1.fs_eq
    refine (ht.trans hu).mono fun y hy => ?_
    obtain ⟨x',hx',hy⟩ := hy
    rcases List.mem_cons.mp hx' with rfl | hx'
    · exact .inl hy
    · refine .inr ⟨x',hx',?_⟩
      change Counted env.toKernel t.1.fs readable x'.1 y
      rw [hfs]
      exact hy

def CopyCall.IsKey (e : CopyCall) : Prop := ∃ name, e = .counted name

theorem notes_put (x : Str) (num : StsSz) (m : CountMap) :
    Moves (Notes CopyCall.IsKey) (Traced.put x num m) := (notes_note ⟨x,rfl⟩).bind fun _ => moves_pure _

theorem notes_countTotalStatsIntoMap (depth : Nat) (x : Str) (m : CountMap) :
    Moves (Notes CopyCall.IsKey) (Traced.countTotalStatsIntoMap sys depth x m) := by
  induction depth generalizing x m with
  | zero => exact moves_throw _
  | succ depth ih =>
    have entries : ∀ (es : List (Str × Name)) (num : StsSz) (m : CountMap), Moves (Notes CopyCall.IsKey)
        (Traced.countEntries sys (Traced.countTotalStatsIntoMap sys depth) es num m) := by
      intro es
      induction es with
      | nil => exact fun _ _ => moves_pure _
      | cons e es ihes =>
        exact fun num m => (notes_plain _).bind fun _ => (ih e.1 m).bind fun r => ihes _ _
    refine (notes_plain _).bind fun efd => ?_
    cases efd with
    | none => exact notes_put _ _ _
    | file => exact (notes_plain _).bind fun _ => notes_put _ _ _
    | dir =>
      exact (notes_plain _).bind fun _ => (entries _ _ _).bind fun r => notes_put _ _ _

theorem notes_populateStackFromCopyList (depth : Nat) (pairs : List Pair) :
    Moves (Notes CopyCall.IsKey) (Traced.populateStackFromCopyList env depth pairs) := by
  induction pairs with
  | nil => exact moves_pure _
  | cons x copyList ih =>
    refine (notes_plain _).bind fun s => Moves.bind ?_ fun r => ?_
    · exact (notes_countTotalStatsIntoMap _ _ _).run fun _ _ h => h
    · exact (notes_plain _).bind fun _ => (notes_plain _).bind fun _ => ih

end Keys

/-! ### The stack -/

/-- The stack and the map are as they were. -/
structure Still (s t : CopyState) : Prop where
  stack : t.S = s.S
  counts : t.descendantCountMap = s.descendantCountMap

instance : Std.Refl Still := ⟨fun _ => ⟨rfl,rfl⟩⟩

instance : IsTrans CopyState Still :=
  ⟨fun _ _ _ h h' => ⟨h'.stack.trans h.stack,h'.counts.trans h.counts⟩⟩

/-- What a round leaves of the pair it takes: nothing, the pair with another destination, or what is in
its source. -/
inductive PairLeft (env : CopyEnv) (s t : CopyState) (pair : Pair) (rest : List Pair) : Prop
  | gone : t.S = rest → PairLeft env s t pair rest
  | again (dest : Str) : t.S = (pair.1,dest) :: rest → PairLeft env s t pair rest
  | children (d : Disk) (entries : List (Str × Name)) : Listing env s pair d →
      Listable env.toSystem d pair.1 → Lists env.toKernel t.disk.fs pair.1 entries →
      t.S = (childrenPairs pair.1 pair.2 entries).reverse ++ rest → PairLeft env s t pair rest

section Stack

variable {env : CopyEnv} {s t u : CopyState} {pair : Pair} {rest : List Pair} {c : CflType}

section Stills

variable {α : Type}

theorem still_onDisk (x : DiskM α) : Moves Still (onDisk x) := by
  intro s
  rw [Leaves,wp_onDisk]
  exact wp_trivial (fun _ _ => ⟨rfl,rfl⟩) fun _ _ => ⟨rfl,rfl⟩

theorem still_onSock (x : ConnM α) : Moves Still (onSock x) := by
  intro s
  rw [Leaves,wp_onSock]
  exact wp_trivial (fun _ _ => ⟨rfl,rfl⟩) fun _ _ => ⟨rfl,rfl⟩

theorem still_waitConflictOrErrorDec (srcI destI : Str) (isConflict : Bool) :
    Moves Still (waitConflictOrErrorDec env srcI destI isConflict) := by
  refine (still_onSock _).bind fun _ => (still_onSock _).bind fun _ => (still_onSock _).bind fun _ => ?_
  refine moves_get.bind fun _ => (still_onSock _).bind fun _ => (still_onSock _).bind fun _ => ?_
  refine Moves.bind (moves_modify fun _ => ⟨rfl,rfl⟩) fun _ => (still_onSock _).bind fun r => ?_
  cases r <;> exact moves_pure _

theorem still_unsolvableError (srcI destI : Str) : Moves Still (unsolvableError env srcI destI) :=
  (still_waitConflictOrErrorDec _ _ _).bind fun _ => (moves_throw _).ite (moves_pure _)

theorem still_sendSkipInfo (srcI : Str) : Moves Still (sendSkipInfo srcI) :=
  (still_onSock _).bind fun _ => moves_get.bind fun _ => (still_onSock _).bind fun _ => still_onSock _

theorem still_copyChunks (input : Path) (output : Path × Name) (n i o progress : Nat) :
    Moves Still (copyChunks env input output n i o progress) := by
  induction n generalizing i o progress with
  | zero => exact moves_throw _
  | succ n ih =>
    refine (still_onDisk _).bind fun r => (moves_pure _).ite ?_
    exact (still_onSock _).bind fun _ => ih _ _ _

theorem still_oscopyfile (source destination : Str) :
    Moves Still (oscopyfile env source destination) := by
  refine (still_onDisk _).bind fun r => ?_
  cases r with
  | error e => exact moves_pure _
  | ok input =>
    refine (still_onDisk _).bind fun r => ?_
    cases r with
    | error e => exact moves_pure _
    | ok output =>
      have content : Moves Still (copyContent env input output) := by
        refine moves_get.bind fun _ => (still_onSock _).bind fun _ => ?_
        refine (still_copyChunks _ _ _ _ _ _).bind fun _ => (still_onSock _).bind fun _ => ?_
        exact moves_get.bind fun _ => (still_onDisk _).bind fun _ => moves_pure _
      exact content.bind fun _ => moves_pure _

end Stills

theorem PairLeft.noted {v : CopyState} (h : PairLeft env s u pair rest) (hd : v.disk = u.disk)
    (hS : v.S = u.S) : PairLeft env s v pair rest := by
  cases h with
  | gone hu => exact .gone (hS.trans hu)
  | again dest hu => exact .again dest (hS.trans hu)
  | children d entries hlist hlistable hentries hu =>
    rw [← hd] at hentries
    exact .children d entries hlist hlistable hentries (hS.trans hu)

/-- The pair is taken from the stack, and the map is the one the round has begun with. -/
def PairTaken (s u : CopyState) (rest : List Pair) : Prop :=
  u.S = rest ∧ u.descendantCountMap = s.descendantCountMap

def PairLeftOf (env : CopyEnv) (s : CopyState) (pair : Pair) (rest : List Pair) (v : CopyState) : Prop :=
  PairLeft env s v pair rest ∧ v.descendantCountMap = s.descendantCountMap

theorem PairTaken.still {α : Type} {x : CopyM α} (h : PairTaken s u rest) (hx : Moves Still x) :
    wp x (fun _ v => PairLeftOf env s pair rest v) (fun _ _ => True) u :=
  wp_mono (hx u) (fun _ _ hv => ⟨.gone (hv.stack.trans h.1),hv.counts.trans h.2⟩) fun _ _ _ => trivial

theorem pushChildrenPairs_left (hu : PairTaken s u rest) (hlist : Listing env s pair u.disk) :
    wp (pushChildrenPairs env pair.1 pair.2) (fun _ v => PairLeftOf env s pair rest v) (fun _ _ => True)
      u := by
  have hmap : wp (pushChildrenPairs env pair.1 pair.2)
      (fun _ v => v.descendantCountMap = u.descendantCountMap) (fun _ _ => True) u := by
    rw [pushChildrenPairs,listChildrenPairs,wp_bind,wp_bind,wp_onDisk]
    exact wp_trivial (fun r _ => by cases r <;> rfl) fun _ _ => trivial
  refine wp_mono (wp_and hmap (wp_pushChildrenPairs pair.1 pair.2)) (fun _ v hv => ?_)
    fun _ _ _ => trivial
  obtain ⟨hmap,hfs,_,_,hstack⟩ := hv
  refine ⟨?_,hmap.trans hu.2⟩
  rcases hstack with ⟨_,hstack⟩ | ⟨hlistable,entries,hentries,hstack⟩
  · exact .gone (hstack.trans hu.1)
  · rw [hu.1] at hstack
    exact .children _ entries hlist hlistable (hfs ▸ hentries) hstack

theorem handleConflict_left {dec : Decision} (hdec : decisionAt env s = some dec)
    (hdisk : u.disk = env.checked s.disk pair) (hu : PairTaken s u rest) :
    wp (handleConflict env pair.1 pair.2 dec c) (fun _ v => PairLeftOf env s pair rest v)
      (fun _ _ => True) u := by
  unfold handleConflict
  rw [wp_bind]
  refine wp_mono recordDecision_kept (fun _ v hv => ?_) fun _ _ _ => trivial
  obtain ⟨decs,rfl,-⟩ := hv
  generalize hv : ({ u with permanentDecs := decs } : CopyState) = v
  have hvdisk : v.disk = env.checked s.disk pair := by rw [← hv]; exact hdisk
  have htaken : PairTaken s v rest := by
    rw [← hv]
    exact hu
  clear hv hu hdisk
  have report : ∀ (dest : Str) (k : Conn) (d : Disk),
      wp (unsolvableError env pair.1 dest) (fun _ w => PairLeftOf env s pair rest w) (fun _ _ => True)
        { v with disk := d, sock := k } := fun dest k d =>
    PairTaken.still (u := { v with disk := d, sock := k }) htaken (still_unsolvableError _ _)
  have back : ∀ (dest : Str) (k : Conn) (d : Disk),
      PairLeftOf env s pair rest { v with disk := d, sock := k, S := (pair.1,dest) :: v.S } :=
    fun dest k d => ⟨.again dest (by rw [htaken.1]),htaken.2⟩
  have delete : wp (do
      if (← onDisk (genericDeleteBasicImpl env.toSystem pair.2)) < 0 then
        unsolvableError env pair.1 pair.2
      else push [(pair.1,pair.2)]) (fun _ w => PairLeftOf env s pair rest w) (fun _ _ => True) v := by
    rw [wp_bind,wp_onDisk]
    refine wp_trivial (fun r d => ?_) fun _ _ => trivial
    rw [wp_ite]
    exact ⟨fun _ => report pair.2 v.sock d,fun _ => back pair.2 v.sock d⟩
  have merge : dec = .CD_MERGE ∨ dec = .CD_MERGE_ALL → wp (pushChildrenPairs env pair.1 pair.2)
      (fun _ w => PairLeftOf env s pair rest w) (fun _ _ => True) v := by
    intro hmerge
    refine pushChildrenPairs_left htaken (.inl ⟨?_,hvdisk⟩)
    rcases hmerge with rfl | rfl
    · exact .inl hdec
    · exact .inr hdec
  have ignore : PairLeftOf env s pair rest v := ⟨.gone htaken.1,htaken.2⟩
  cases dec with
  | CD_SKIP => exact htaken.still (still_sendSkipInfo _)
  | CD_SKIP_ALL => exact htaken.still (still_sendSkipInfo _)
  | CD_OVERWRITE => exact delete
  | CD_OVERWRITE_ALL => exact delete
  | CD_MERGE => exact merge (.inl rfl)
  | CD_MERGE_ALL => exact merge (.inr rfl)
  | CD_REN_DEST_ALL =>
    rw [autoRenameDest,wp_bind,wp_onDisk]
    refine wp_trivial (fun dest d => ?_) fun _ _ => trivial
    rw [wp_bind,wp_onDisk]
    refine wp_trivial (fun r d => ?_) fun _ _ => trivial
    cases r with
    | error e => exact report dest v.sock d
    | ok _ => exact back pair.2 v.sock d
  | CD_REN_SRC_ALL =>
    rw [autoRenameSrc,wp_bind,wp_onDisk]
    exact wp_trivial (fun dest d => back dest v.sock d) fun _ _ => trivial
  | CD_REN_DEST =>
    simp only [wp_bind]
    rw [wp_onSock]
    refine wp_trivial (fun newname k => ?_) fun _ _ => trivial
    rw [wp_onDisk]
    refine wp_trivial (fun r d => ?_) fun _ _ => trivial
    cases r with
    | error e => exact report pair.2 k d
    | ok _ => exact back pair.2 k d
  | CD_REN_SRC =>
    simp only [wp_bind]
    rw [wp_onSock]
    exact wp_trivial (fun newname k => back _ k v.disk) fun _ _ => trivial
  | CD_CANCEL => trivial
  | CD_MERGE_RECURSIVE => exact ignore
  | NO_PREV_DEC => exact ignore
  | unknown code => exact ignore

theorem copyRound_left (hS : s.S = pair :: rest) :
    wp (copyRound env) (fun r t => r = none → PairLeftOf env s pair rest t) (fun _ _ => True) s := by
  have htaken : PairTaken s (env.begins s pair rest) rest := ⟨rfl,rfl⟩
  refine wp_copyRound_cases hS (fun _ h => by simp at h)
    (fun u info progress hu h => ⟨(hu h).1.noted rfl rfl,(hu h).2⟩)
    (fun efd body he hmaking hfree => ?_) (fun t hcfl hask info => ?_) fun t hcfl hkept => ?_
  · have hnone : decisionAt env s = none := by simp [decisionAt,conflictAt,hS,hfree]
    have hbody : wp body (fun r v => r = .OK_TYPE ∧ PairLeftOf env s pair rest v ∨
        r = .UNSOLVABLE_ERROR_TYPE ∧ PairTaken s v rest) (fun _ _ => True) (env.begins s pair rest) := by
      cases hmaking with
      | file =>
        refine wp_mono (wp_and (oscopyfile_asked he hfree) (still_oscopyfile pair.1 pair.2 _))
          (fun r v hv => ?_) fun _ _ _ => trivial
        obtain ⟨rfl | ⟨rfl,_⟩,hstill⟩ := hv
        · exact .inl ⟨rfl,.gone hstill.stack,hstill.counts⟩
        · exact .inr ⟨rfl,hstill.stack,hstill.counts⟩
      | dir =>
        unfold makeDestDir
        rw [wp_bind,wp_onDisk]
        refine wp_result (wp_trivial (fun r d hres => ?_) fun _ _ _ => trivial)
        rw [wp_ite]
        refine ⟨fun _ => .inr ⟨rfl,rfl,rfl⟩,fun hok => ?_⟩
        rw [wp_bind]
        have hlist : Listing env s pair d := .inr ⟨hnone,he,r,by omega,hres⟩
        have hmade : PairTaken s { env.begins s pair rest with disk := d } rest := ⟨rfl,rfl⟩
        exact wp_mono (pushChildrenPairs_left hmade hlist) (fun _ v hv => .inl ⟨rfl,hv⟩)
          fun _ _ _ => trivial
    refine wp_mono hbody (fun r u hu => ?_) fun _ _ _ => trivial
    rcases hu with ⟨rfl,hu⟩ | ⟨rfl,hu⟩
    · exact .inl ⟨rfl,fun _ => hu⟩
    · refine .inr ⟨rfl,fun info => ?_⟩
      have hnoted : PairTaken s { u with lastCEInfo := info } rest := hu
      exact wp_mono (hnoted.still (still_unsolvableError _ _)) (fun _ _ hv _ => hv) fun _ _ _ => trivial
  · have hdec := decisionAt_of_conflict hcfl (if_pos hask).symm
    rw [wp_bind]
    refine wp_waitConflictOrErrorDec (fun k _ _ _ => ?_) fun _ _ => trivial
    exact wp_mono (handleConflict_left hdec rfl ⟨rfl,rfl⟩) (fun _ _ hv _ => hv) fun _ _ _ => trivial
  · have hdec := decisionAt_of_conflict hcfl (if_neg hkept).symm
    rw [wp_ite]
    refine ⟨fun _ => ?_,fun _ => ?_⟩
    · exact wp_mono (htaken.still (still_sendSkipInfo _)) (fun _ _ hv _ => hv) fun _ _ _ => trivial
    · exact wp_mono (handleConflict_left hdec rfl htaken) (fun _ _ hv _ => hv) fun _ _ _ => trivial

end Stack

/-- What is listed for its entries is a directory, not a link to one, and its path does not end in a
slash. -/
def ListsPlain (env : CopyEnv) (s₀ : CopyState) : Prop :=
  ∀ s pair rest d, InRun env s₀ s → s.S = pair :: rest → Listing env s pair d →
    Listable env.toSystem d pair.1 →
    efdAt env.toKernel s.disk.fs pair.1 = .dir ∧ ¬ endsWithSlash pair.1

def SkipsListable (env : CopyEnv) (readable : Str → Prop) (s₀ : CopyState) : Prop :=
  ∀ s pair rest, InRun env s₀ s → s.S = pair :: rest →
    (decisionAt env s = some .CD_SKIP ∨ decisionAt env s = some .CD_SKIP_ALL) →
    ∀ y, Counted env.toKernel s₀.disk.fs readable pair.1 y →
      efdAt env.toKernel s₀.disk.fs y = .dir → absolute y ∧ readable y

/-- What is skipped is a key before, and the skip tells how many files are at or below it. -/
structure SkipsRight (k : Kernel) (fs : FileSystem) (log : List CopyCall) : Prop where
  keyed : ∀ before srcI sk after, log = before ++ .skipped srcI sk :: after → .counted srcI ∈ before
  files : ∀ srcI sk, .skipped srcI sk ∈ log → FilesBelow k fs srcI sk.tFiles

section Run

variable {env : CopyEnv} {readable : Str → Prop} {s₀ s : CopyState}

/-- The map stays, and what is on the stack was met counting the sources. -/
structure Rooted (env : CopyEnv) (readable : Str → Prop) (s₀ s : CopyState) : Prop where
  counts : s.descendantCountMap = s₀.descendantCountMap
  source : ∀ pair ∈ s.S, ∃ src ∈ s₀.S, Counted env.toKernel s₀.disk.fs readable src.1 pair.1

theorem Rooted.round {t : CopyState} (hsame : SourcesUnchanging env readable s₀)
    (hlists : ListsPlain env s₀) (hs : InRun env s₀ s) (h : Rooted env readable s₀ s)
    (hround : copyRound env s = .ok none t) : Rooted env readable s₀ t := by
  obtain ⟨pair,rest,hS,_⟩ := (Outcome.of_round hround).next
  have hleft := @copyRound_left env s pair rest hS
  rw [wp_of_ok hround] at hleft
  obtain ⟨hleft,hcounts⟩ := hleft rfl
  have ht : InRun env s₀ t := hs.reached (.round .start trivial hround)
  obtain ⟨src,hsrc,hmet⟩ := h.source pair (hS ▸ List.mem_cons_self)
  have hrest : ∀ pair ∈ rest, ∃ src ∈ s₀.S, Counted env.toKernel s₀.disk.fs readable src.1 pair.1 :=
    fun pair hp => h.source pair (hS ▸ List.mem_cons_of_mem _ hp)
  refine ⟨hcounts.trans h.counts,?_⟩
  cases hleft with
  | gone htS => exact htS ▸ hrest
  | again dest htS =>
    rw [htS]
    exact List.forall_mem_cons.mpr ⟨⟨src,hsrc,hmet⟩,hrest⟩
  | children d entries hlist hlistable hentries htS =>
    obtain ⟨hdir,hslash⟩ := hlists s pair rest d hs hS hlist hlistable
    have hread := (hsame.listed s pair rest d hs hS hdir hlist).mp hlistable.2.1
    have hseen := hsame.seen s hs src hsrc pair.1 hmet
    have hseen' := hsame.seen t ht src hsrc pair.1 hmet
    have hdir₀ : efdAt env.toKernel s₀.disk.fs pair.1 = .dir := hseen.kind ▸ hdir
    obtain ⟨habs,p,names,hp,_,hperm,rfl⟩ := hseen'.entries entries hentries
    rw [htS]
    intro pair' hp'
    rcases List.mem_append.mp hp' with hp' | hp'
    · simp only [childrenPairs,List.map_map,List.mem_reverse,List.mem_map,Function.comp_apply] at hp'
      obtain ⟨c,hc,rfl⟩ := hp'
      refine ⟨src,hsrc,?_⟩
      have hconcat : pathConcat pair.1 c = pair.1 ++ slash :: c := if_neg hslash
      rw [hconcat]
      exact .child hmet hdir₀ habs hread hp (hperm.mem_iff.mp hc)
    · exact hrest pair' hp'

theorem InRun.rooted (hsame : SourcesUnchanging env readable s₀) (hlists : ListsPlain env s₀)
    (h : InRun env s₀ s) : Rooted env readable s₀ s := by
  obtain ⟨s₁,hann,hreach⟩ := h
  have hstart : Rooted env readable s₀ s₁ := by
    have hwp : wp announce (fun _ t => Rooted env readable s₀ t) (fun _ _ => True) s₀ :=
      wp_announce (fun _ _ _ _ => ⟨rfl,fun pair hp => ⟨pair,hp,.start⟩⟩) fun _ _ => trivial
    rwa [wp_of_ok hann] at hwp
  induction hreach with
  | start => exact hstart
  | round hreach _ hround ih => exact ih.round hsame hlists ⟨s₁,hann,hreach⟩ hround

end Run

/-- `/r` and `/e` are directories with a directory `d` each, and `/r/d` holds a file `c`. -/
def twoFolders : FileSystem :=
  .ofEntries [([],.dir 0o755),([text ['r']],.dir 0o755),([text ['r'],text ['d']],.dir 0o755),
    ([text ['r'],text ['d'],text ['c']],.file (text ['x']) 0o644),([text ['e']],.dir 0o755),
    ([text ['e'],text ['d']],.dir 0o755)] (by decide)

/-- The task onto `/e`, set up; the client merges the directories and skips what they both have. -/
def mergeAndSkip (source : Str) : CopyState × List CopyCall :=
  final (Traced.populateStackFromCopyList (.calm 0) 3 [(source,text ['/','e'])])
    (unpopulated twoFolders [0x04,0x00],[])

theorem fileSystem_eq {fs fs' : FileSystem} (hpaths : fs.paths = fs'.paths)
    (h : ∀ p ∈ fs.paths, fs.node p = fs'.node p) : fs = fs' := by
  have hnode : fs.node = fs'.node := by
    funext p
    by_cases hp : p ∈ fs.paths
    · exact h p hp
    · have hnone : fs.node p = none := by
        simpa using fun hsome => hp ((fs.mem_paths p).mpr hsome)
      have hnone' : fs'.node p = none := by
        simpa using fun hsome => hp (hpaths ▸ (fs'.mem_paths p).mpr hsome)
      rw [hnone,hnone']
  cases fs
  cases fs'
  cases hpaths
  cases hnode
  rfl

theorem unchanging_of_begun {s₀ : CopyState} {n : Nat}
    (hend : endsWithin (copyRound (.calm 0)) n (final announce s₀))
    (hsame : ∀ s ∈ begun (copyRound (.calm 0)) n (final announce s₀),
      s.disk.fs.paths = s₀.disk.fs.paths ∧ ∀ p ∈ s.disk.fs.paths, s.disk.fs.node p = s₀.disk.fs.node p) :
    SourcesUnchanging (.calm 0) (fun _ => True) s₀ := by
  refine ⟨fun _ _ _ => iff_of_true rfl trivial,fun _ _ _ _ _ _ _ _ => iff_of_true rfl trivial,
    fun s hs _ _ x _ => ?_⟩
  obtain ⟨hpaths,hnodes⟩ := hsame s (hs.mem_begun hend)
  have hfs := fileSystem_eq hpaths hnodes
  exact ⟨by rw [hfs],fun entries hlist => hfs ▸ hlist⟩

end RootHelper
