import RootHelper.CountedFiles
import RootHelper.Indications

/-!
The files a copy accounts for: each end marker stands for one, and each skip for as many as it
says. What the stack still holds and what the client was told make up the total at any time.
-/

set_option autoImplicit false

namespace RootHelper
open Posix Control

variable {env : CopyEnv} {s t u v : CopyState}

/-! ### A round -/

def Decision.accounts : Decision → Bool
  | CD_SKIP | CD_SKIP_ALL | CD_OVERWRITE | CD_OVERWRITE_ALL | CD_REN_SRC | CD_REN_SRC_ALL
  | CD_REN_DEST | CD_REN_DEST_ALL => true
  | _ => false

def Drawn (env : CopyEnv) (s : CopyState) : Prop :=
  ∀ dec, decisionAt env s = some dec → dec.accounts ∨
    (dec = .CD_MERGE ∨ dec = .CD_MERGE_ALL) ∧
      ∃ pair, conflictAt env s = some (pair,.CONFLICT_TYPE_DIR)

/-- What becomes of the pair on top, what the client is shown of it, and the stack that is left. -/
inductive Dealt (env : CopyEnv) (s t : CopyState) (pair : Pair) (rest : List Pair) : Prop
  | copied : efdAt env.toKernel s.disk.fs pair.1 = .file → Shows [.eof] s t → t.S = rest →
      Dealt env s t pair rest
  | skipped : Shows [.skip (s.descendantCountMap pair.1).tFiles (s.descendantCountMap pair.1).tSize] s t →
      t.S = rest → Dealt env s t pair rest
  | reported : Shows [.error] s t → t.S = rest → Dealt env s t pair rest
  | again (dest : Str) : Shows [] s t → t.S = (pair.1,dest) :: rest → Dealt env s t pair rest
  | unlisted (d : Disk) : efdAt env.toKernel s.disk.fs pair.1 = .dir → Listing env s pair d →
      ¬ Listable env.toSystem d pair.1 → t.disk.fs = d.fs → Shows [] s t → t.S = rest →
      Dealt env s t pair rest
  | children (d : Disk) (entries : List (Str × Name)) : efdAt env.toKernel s.disk.fs pair.1 = .dir →
      Listing env s pair d → Listable env.toSystem d pair.1 →
      Lists env.toKernel t.disk.fs pair.1 entries → Shows [] s t →
      t.S = (childrenPairs pair.1 pair.2 entries).reverse ++ rest → Dealt env s t pair rest

section Pair

variable {pair : Pair} {rest : List Pair} {c : CflType}

theorem Dealt.noted (h : Dealt env s u pair rest) (hd : v.disk = u.disk) (hk : v.sock = u.sock)
    (hS : v.S = u.S) (hmap : v.descendantCountMap = u.descendantCountMap) :
    Dealt env s v pair rest := by
  have hout : v.sock.out = u.sock.out := by rw [hk]
  cases h with
  | copied hefd h hu => exact .copied hefd (h.aside hmap hout) (hS.trans hu)
  | skipped h hu => exact .skipped (h.aside hmap hout) (hS.trans hu)
  | reported h hu => exact .reported (h.aside hmap hout) (hS.trans hu)
  | again dest h hu => exact .again dest (h.aside hmap hout) (hS.trans hu)
  | unlisted d hefd hlist hno hfs h hu =>
    rw [← hd] at hfs
    exact .unlisted d hefd hlist hno hfs (h.aside hmap hout) (hS.trans hu)
  | children d entries hefd hlist hlistable hentries h hu =>
    rw [← hd] at hentries
    exact .children d entries hefd hlist hlistable hentries (h.aside hmap hout) (hS.trans hu)

theorem unsolvableError_dealt (srcI destI : Str) (hu : Shows [] s u) (hS : u.S = rest) :
    wp (unsolvableError env srcI destI) (fun _ v => Dealt env s v pair rest) (fun _ _ => True) u := by
  refine wp_mono (unsolvableError_shows srcI destI hu) (fun _ v hv => ?_) fun _ _ _ => trivial
  exact .reported hv.1 (hv.2.stack.trans hS)

theorem pushChildrenPairs_dealt (hu : Shows [] s u) (hS : u.S = rest)
    (hefd : efdAt env.toKernel s.disk.fs pair.1 = .dir) (hlist : Listing env s pair u.disk) :
    wp (pushChildrenPairs env pair.1 pair.2) (fun _ v => Dealt env s v pair rest) (fun _ _ => True)
      u := by
  have hmap : wp (pushChildrenPairs env pair.1 pair.2)
      (fun _ v => v.descendantCountMap = u.descendantCountMap) (fun _ _ => True) u := by
    rw [pushChildrenPairs,listChildrenPairs,wp_bind,wp_bind,wp_onDisk]
    exact wp_trivial (fun r _ => by cases r <;> rfl) fun _ _ => trivial
  refine wp_mono (wp_and hmap (wp_pushChildrenPairs pair.1 pair.2)) (fun _ v hv => ?_)
    fun _ _ _ => trivial
  obtain ⟨hmap,hfs,_,hsock,hstack⟩ := hv
  have hv : Shows [] s v := hu.aside hmap (by rw [hsock])
  rcases hstack with ⟨hno,hstack⟩ | ⟨hlistable,entries,hentries,hstack⟩
  · exact .unlisted _ hefd hlist hno hfs hv (hstack.trans hS)
  · rw [hS] at hstack
    exact .children _ entries hefd hlist hlistable (hfs ▸ hentries) hv hstack

theorem handleConflict_dealt {dec : Decision} (hdrawn : Drawn env s) (hcfl : conflictAt env s = some (pair,c))
    (hefd : c = .CONFLICT_TYPE_DIR → efdAt env.toKernel s.disk.fs pair.1 = .dir)
    (hdec : decisionAt env s = some dec) (hdisk : u.disk = env.checked s.disk pair)
    (hu : Shows [] s u) (hS : u.S = rest) :
    wp (handleConflict env pair.1 pair.2 dec c) (fun _ v => Dealt env s v pair rest)
      (fun _ _ => True) u := by
  unfold handleConflict
  rw [wp_bind]
  refine wp_mono recordDecision_kept (fun _ v hv => ?_) fun _ _ _ => trivial
  obtain ⟨decs,rfl,-⟩ := hv
  generalize hv : ({ u with permanentDecs := decs } : CopyState) = v
  have hvS : v.S = rest := by rw [← hv]; exact hS
  have hvdisk : v.disk = env.checked s.disk pair := by rw [← hv]; exact hdisk
  have hshow : Shows [] s v := by
    rw [← hv]
    exact hu.aside rfl rfl
  clear hv hu hS hdisk
  have report : ∀ (dest : Str) (k : Conn) (d : Disk), k.out = v.sock.out →
      wp (unsolvableError env pair.1 dest) (fun _ w => Dealt env s w pair rest) (fun _ _ => True)
        { v with disk := d, sock := k } := fun dest k d hk =>
    unsolvableError_dealt pair.1 dest (hshow.aside rfl hk) hvS
  have back : ∀ (dest : Str) (k : Conn) (d : Disk), k.out = v.sock.out →
      Dealt env s { v with disk := d, sock := k, S := (pair.1,dest) :: v.S } pair rest :=
    fun dest k d hk => .again dest (hshow.aside rfl hk) (by rw [hvS])
  have delete : wp (do
      if (← onDisk (genericDeleteBasicImpl env.toSystem pair.2)) < 0 then
        unsolvableError env pair.1 pair.2
      else push [(pair.1,pair.2)]) (fun _ w => Dealt env s w pair rest) (fun _ _ => True) v := by
    rw [wp_bind,wp_onDisk]
    refine wp_trivial (fun r d => ?_) fun _ _ => trivial
    rw [wp_ite]
    exact ⟨fun _ => report pair.2 v.sock d rfl,fun _ => back pair.2 v.sock d rfl⟩
  have skip : wp (sendSkipInfo pair.1) (fun _ w => Dealt env s w pair rest) (fun _ _ => True) v := by
    refine wp_mono (sendSkipInfo_shows pair.1 hshow) (fun _ w hw => ?_) fun _ _ _ => trivial
    exact .skipped hw.1 (hw.2.1.trans hvS)
  have merge : dec = .CD_MERGE ∨ dec = .CD_MERGE_ALL → wp (pushChildrenPairs env pair.1 pair.2)
      (fun _ w => Dealt env s w pair rest) (fun _ _ => True) v := by
    intro hmerge
    have hdir : efdAt env.toKernel s.disk.fs pair.1 = .dir := by
      rcases hdrawn dec hdec with hacc | ⟨_,pair',hkind⟩
      · rcases hmerge with rfl | rfl <;> simp [Decision.accounts] at hacc
      · obtain ⟨_,hc⟩ := Prod.mk.inj (Option.some.inj (hcfl.symm.trans hkind))
        exact hefd hc
    refine pushChildrenPairs_dealt hshow hvS hdir (.inl ⟨?_,hvdisk⟩)
    rcases hmerge with rfl | rfl
    · exact .inl hdec
    · exact .inr hdec
  have other : dec.accounts ∨ dec = .CD_MERGE ∨ dec = .CD_MERGE_ALL := by
    rcases hdrawn dec hdec with hacc | ⟨hmerge,_⟩
    · exact .inl hacc
    · exact .inr hmerge
  cases dec with
  | CD_SKIP => exact skip
  | CD_SKIP_ALL => exact skip
  | CD_OVERWRITE => exact delete
  | CD_OVERWRITE_ALL => exact delete
  | CD_MERGE => exact merge (.inl rfl)
  | CD_MERGE_ALL => exact merge (.inr rfl)
  | CD_REN_DEST_ALL =>
    rw [autoRenameDest,wp_bind,wp_onDisk]
    refine wp_trivial (fun dest d => ?_) fun _ _ => trivial
    rw [wp_bind,wp_onDisk]
    refine wp_trivial (fun r d => ?_) fun _ _ => trivial
    cases r with
    | error e => exact report dest v.sock d rfl
    | ok _ => exact back pair.2 v.sock d rfl
  | CD_REN_SRC_ALL =>
    rw [autoRenameSrc,wp_bind,wp_onDisk]
    exact wp_trivial (fun dest d => back dest v.sock d rfl) fun _ _ => trivial
  | CD_REN_DEST =>
    simp only [wp_bind]
    rw [wp_onSock]
    refine wp_readStringWithLen (fun newname _ _ => ?_) fun _ _ => trivial
    rw [wp_onDisk]
    refine wp_trivial (fun r d => ?_) fun _ _ => trivial
    cases r with
    | error e => exact report pair.2 { v.sock with inp := v.sock.inp.drop (2 + newname.length) } d rfl
    | ok _ => exact back pair.2 { v.sock with inp := v.sock.inp.drop (2 + newname.length) } d rfl
  | CD_REN_SRC =>
    simp only [wp_bind]
    rw [wp_onSock]
    refine wp_readStringWithLen (fun newname _ _ => ?_) fun _ _ => trivial
    exact back _ { v.sock with inp := v.sock.inp.drop (2 + newname.length) } v.disk rfl
  | CD_CANCEL => trivial
  | CD_MERGE_RECURSIVE => simp [Decision.accounts] at other
  | NO_PREV_DEC => simp [Decision.accounts] at other
  | unknown code => simp [Decision.accounts] at other

theorem oscopyfile_dealt (hsize : ∀ p, env.sizeOf s.disk.fs p < 2^63)
    (hefd : efdAt env.toKernel s.disk.fs pair.1 = .file)
    (hfree : efdAt env.toKernel s.disk.fs pair.2 = .none) :
    wp (oscopyfile env pair.1 pair.2)
      (fun r v => r = .OK_TYPE ∧ Dealt env s v pair rest ∨
        r = .UNSOLVABLE_ERROR_TYPE ∧ Shows [] s v ∧ v.S = rest)
      (fun _ _ => True) (env.begins s pair rest) := by
  have hfs : (env.begins s pair rest).disk.fs = s.disk.fs := (checked_quiet s.disk pair).fs_eq
  refine wp_oscopyfile_eq (by rw [hfs]; exact hfree) (fun d _ _ => ?_)
    (fun input p c d ps m _ _ _ _ _ hps _ _ _ => ?_)
    fun _ _ _ _ _ _ _ _ _ _ => trivial
  · exact .inr ⟨rfl,⟨rfl,[],by simp [CopyEnv.begins],.nil⟩,rfl⟩
  · have hcontent : ps.flatten.length ≤ (contentAt (env.begins s pair rest).disk.fs input).length := by
      rw [hps]
      exact pieces_length_le _ _ _
    have hbound : (contentAt (env.begins s pair rest).disk.fs input).length ≤
        env.sizeOf (env.begins s pair rest).disk.fs input := by
      unfold contentAt System.sizeOf
      cases (env.begins s pair rest).disk.fs.node input with
      | none => simp
      | some n => cases n <;> simp
    have hsize := hsize input
    rw [← hfs] at hsize
    exact .inl ⟨rfl,.copied hefd ⟨rfl,_,rfl,reads_transfer hsize (by omega)⟩ rfl⟩

theorem makeDestDir_dealt (hefd : efdAt env.toKernel s.disk.fs pair.1 = .dir)
    (hdec : decisionAt env s = none) :
    wp (makeDestDir env pair.1 pair.2)
      (fun r v => r = .OK_TYPE ∧ Dealt env s v pair rest ∨
        r = .UNSOLVABLE_ERROR_TYPE ∧ Shows [] s v ∧ v.S = rest)
      (fun _ _ => True) (env.begins s pair rest) := by
  have hshow : ∀ d, Shows [] s { env.begins s pair rest with disk := d } := fun d =>
    (Shows.start s).aside rfl rfl
  unfold makeDestDir
  rw [wp_bind,wp_onDisk]
  refine wp_result (wp_trivial (fun r d hres => ?_) fun _ _ _ => trivial)
  rw [wp_ite]
  refine ⟨fun _ => .inr ⟨rfl,hshow d,rfl⟩,fun hok => ?_⟩
  rw [wp_bind]
  have hlist : Listing env s pair d := .inr ⟨hdec,hefd,r,by omega,hres⟩
  exact wp_mono (pushChildrenPairs_dealt (hshow d) rfl hefd hlist) (fun _ v hv => .inl ⟨rfl,hv⟩)
    fun _ _ _ => trivial

end Pair

theorem copyRound_dealt (hdrawn : Drawn env s) (hsize : ∀ p, env.sizeOf s.disk.fs p < 2^63) :
    wp (copyRound env) (fun r t => r = none → ∃ pair rest, s.S = pair :: rest ∧
      Dealt env s t pair rest) (fun _ _ => True) s := by
  cases hS : s.S with
  | nil =>
    unfold copyRound
    rw [wp_bind,wp_get,hS]
    exact fun h => by simp at h
  | cons pair rest =>
    have hround : wp (copyRound env) (fun r t => r = none → Dealt env s t pair rest)
        (fun _ _ => True) s := by
      have hshow : Shows [] s (env.begins s pair rest) := (Shows.start s).aside rfl rfl
      have hkind : ∀ {c : CflType}, conflictAt env s = some (pair,c) → c = .CONFLICT_TYPE_DIR →
          efdAt env.toKernel s.disk.fs pair.1 = .dir := by
        intro c hcfl hc
        cases he : efdAt env.toKernel s.disk.fs pair.1 <;> simp_all [conflictAt]
      refine wp_copyRound_cases hS (fun _ h => by simp at h)
        (fun u info progress hu h => (hu h).noted rfl rfl rfl rfl)
        (fun efd body he hmaking hfree => ?_) (fun t hcfl hask info => ?_) fun t hcfl hkept => ?_
      · have hnone : decisionAt env s = none := by simp [decisionAt,conflictAt,hS,hfree]
        have hbody : wp body (fun r v => r = .OK_TYPE ∧ Dealt env s v pair rest ∨
            r = .UNSOLVABLE_ERROR_TYPE ∧ Shows [] s v ∧ v.S = rest) (fun _ _ => True)
            (env.begins s pair rest) := by
          cases hmaking with
          | file => exact oscopyfile_dealt hsize he hfree
          | dir => exact makeDestDir_dealt he hnone
        refine wp_mono hbody (fun r u hu => ?_) fun _ _ _ => trivial
        rcases hu with ⟨rfl,hu⟩ | ⟨rfl,hu,huS⟩
        · exact .inl ⟨rfl,fun _ => hu⟩
        · refine .inr ⟨rfl,fun info => ?_⟩
          exact wp_mono (unsolvableError_dealt pair.1 pair.2 (hu.aside rfl rfl) huS)
            (fun _ _ hv _ => hv) fun _ _ _ => trivial
      · have hdec := decisionAt_of_conflict hcfl (if_pos hask).symm
        rw [wp_bind]
        have hanswer : wp (waitConflictOrErrorDec env pair.1 pair.2 true)
            (fun dec u => dec = answerAt env s ∧ u.disk = env.checked s.disk pair ∧ u.S = rest)
            (fun _ _ => True) { env.begins s pair rest with lastCEInfo := info } :=
          wp_waitConflictOrErrorDec (fun _ _ _ _ => ⟨rfl,rfl,rfl⟩) fun _ _ => trivial
        refine wp_mono (wp_and hanswer (showing_waitConflictOrErrorDec pair.1 pair.2 true _))
          (fun dec u hu => ?_) fun _ _ _ => trivial
        obtain ⟨⟨rfl,hdisk,huS⟩,hshown⟩ := hu
        have hnoted : Shows [] s { env.begins s pair rest with lastCEInfo := info } :=
          hshow.aside rfl rfl
        have hshown : Shows [] s u := hnoted.trans hshown
        exact wp_mono (handleConflict_dealt hdrawn hcfl (hkind hcfl) hdec hdisk hshown huS)
          (fun _ _ hv _ => hv) fun _ _ _ => trivial
      · have hdec := decisionAt_of_conflict hcfl (if_neg hkept).symm
        rw [wp_ite]
        refine ⟨fun _ => ?_,fun _ => ?_⟩
        · refine wp_mono (sendSkipInfo_shows pair.1 hshow) (fun _ u hu _ => ?_) fun _ _ _ => trivial
          exact .skipped (hu.1.aside rfl rfl) hu.2.1
        · exact wp_mono (handleConflict_dealt hdrawn hcfl (hkind hcfl) hdec rfl hshow rfl)
            (fun _ _ hv _ => hv) fun _ _ _ => trivial
    exact wp_mono hround (fun _ t ht h => ⟨pair,rest,rfl,ht h⟩) fun _ _ _ => trivial

theorem Dealt.of_round {pair : Pair} {rest : List Pair} (hdrawn : Drawn env s)
    (hsize : ∀ p, env.sizeOf s.disk.fs p < 2^63) (hS : s.S = pair :: rest)
    (h : copyRound env s = .ok none t) : Dealt env s t pair rest := by
  have hround := copyRound_dealt hdrawn hsize
  rw [wp_of_ok h] at hround
  obtain ⟨pair',rest',hS',hdealt⟩ := hround rfl
  obtain ⟨rfl,rfl⟩ := List.cons.inj (hS.symm.trans hS')
  exact hdealt

/-! ### The whole run -/

def owed (m : CountMap) (S : List Pair) : Nat := (S.map fun pair => (m pair.1).tFiles).sum

/-- Looking at `x` finds in `fs'` what it finds in `fs`. -/
structure SeenAlike (k : Kernel) (fs fs' : FileSystem) (x : Str) : Prop where
  kind : efdAt k fs' x = efdAt k fs x
  entries : ∀ entries, Lists k fs' x entries → Lists k fs x entries

/-- Nothing that is looked at of the sources, counting them or in a round, has changed since `s₀`:
what stands where, what is in a directory, and whether it can be listed. -/
structure SourcesUnchanging (env : CopyEnv) (readable : Str → Prop) (s₀ : CopyState) : Prop where
  opened : OpensAgree env.toSystem readable s₀.disk.log
  listed : ∀ s pair rest d, InRun env s₀ s → s.S = pair :: rest →
    efdAt env.toKernel s.disk.fs pair.1 = .dir → Listing env s pair d →
    (env.refuse d.tick = none ↔ readable pair.1)
  seen : ∀ s, InRun env s₀ s → ∀ pair ∈ s₀.S, ∀ x,
    Counted env.toKernel s₀.disk.fs readable pair.1 x →
    SeenAlike env.toKernel s₀.disk.fs s.disk.fs x

section Run

variable {readable : Str → Prop} {s₀ s₁ : CopyState}

/-- What the count of the sources has left. -/
structure CountedSources (env : CopyEnv) (readable : Str → Prop) (s₀ : CopyState) : Prop where
  total : s₀.counts.tFiles = owed s₀.descendantCountMap s₀.S
  right : ∀ pair ∈ s₀.S, ∀ x, Counted env.toKernel s₀.disk.fs readable pair.1 x →
    FilesAt env.toKernel s₀.disk.fs readable x (s₀.descendantCountMap x).tFiles
  no_slash : ∀ pair ∈ s₀.S, ¬ endsWithSlash pair.1

/-- On the way from `s₁` the client was told of all files that are no longer on the stack, which
holds paths that were counted. -/
structure Accounted (env : CopyEnv) (readable : Str → Prop) (s₀ s₁ s : CopyState) : Prop where
  told : ∃ is, Shows is s₁ s ∧
    (.error ∉ is → accountedFor is + owed s₀.descendantCountMap s.S = s₀.counts.tFiles)
  source : ∀ pair ∈ s.S, ∃ src ∈ s₀.S, Counted env.toKernel s₀.disk.fs readable src.1 pair.1

theorem owed_children {m : CountMap} {fs : FileSystem} {x dest : Str} {n : Nat}
    {entries : List (Str × Name)} (hslash : ¬ endsWithSlash x) (hefd : efdAt env.toKernel fs x = .dir)
    (hread : readable x) (hlist : Lists env.toKernel fs x entries)
    (hx : FilesAt env.toKernel fs readable x n)
    (hright : ∀ y, Counted env.toKernel fs readable x y → FilesAt env.toKernel fs readable y (m y).tFiles) :
    owed m (childrenPairs x dest entries) = n ∧
      ∀ pair ∈ childrenPairs x dest entries, Counted env.toKernel fs readable x pair.1 := by
  obtain ⟨habs,p,names,hp,_,hperm,rfl⟩ := hlist
  have hconcat : ∀ c, pathConcat x c = x ++ slash :: c := fun c => if_neg hslash
  have hmet : ∀ c ∈ fs.children p, Counted env.toKernel fs readable x (x ++ slash :: c) :=
    fun c hc => .child .start hefd habs hread hp hc
  constructor
  · have hsum : FilesAt env.toKernel fs readable x
        ((fs.children p).map fun c => (m (x ++ slash :: c)).tFiles).sum :=
      .dir _ hefd habs hread hp fun c hc => hright _ (hmet c hc)
    rw [hx.unique hsum,← (hperm.map fun c => (m (x ++ slash :: c)).tFiles).sum_nat]
    simp [owed,childrenPairs,Function.comp_def,hconcat]
  · intro pair hpair
    simp only [childrenPairs,List.map_map,List.mem_map,Function.comp_apply] at hpair
    obtain ⟨c,hc,rfl⟩ := hpair
    rw [hconcat]
    exact hmet c (hperm.mem_iff.mp hc)

theorem owed_cons (m : CountMap) (pair : Pair) (S : List Pair) :
    owed m (pair :: S) = (m pair.1).tFiles + owed m S := rfl

theorem owed_append (m : CountMap) (S S' : List Pair) : owed m (S ++ S') = owed m S + owed m S' := by
  simp [owed]

theorem owed_reverse (m : CountMap) (S : List Pair) : owed m S.reverse = owed m S :=
  ((List.reverse_perm S).map _).sum_nat

theorem Accounted.round (hcount : CountedSources env readable s₀)
    (hsame : SourcesUnchanging env readable s₀) (hmap : s₁.descendantCountMap = s₀.descendantCountMap)
    (hs : InRun env s₀ s) (hdrawn : Drawn env s) (hsize : ∀ p, env.sizeOf s.disk.fs p < 2^63)
    (h : Accounted env readable s₀ s₁ s) (hround : copyRound env s = .ok none t) :
    Accounted env readable s₀ s₁ t := by
  obtain ⟨⟨is,hshows,htold⟩,hsource⟩ := h
  obtain ⟨pair,rest,hS,hthere,_⟩ := (Outcome.of_round hround).next
  have hdealt := Dealt.of_round hdrawn hsize hS hround
  have ht : InRun env s₀ t := hs.reached (.round .start trivial hround)
  have hsmap : s.descendantCountMap = s₀.descendantCountMap := hshows.counts.trans hmap
  rw [hS] at hsource
  obtain ⟨src,hsrc,hmet⟩ := hsource pair List.mem_cons_self
  have hrest : ∀ pair ∈ rest, ∃ src ∈ s₀.S, Counted env.toKernel s₀.disk.fs readable src.1 pair.1 :=
    fun pair hp => hsource pair (List.mem_cons_of_mem _ hp)
  have hslash := hmet.no_slash (hcount.no_slash src hsrc)
  have hright := hcount.right src hsrc pair.1 hmet
  have hseen := hsame.seen s hs src hsrc pair.1 hmet
  have hseen' := hsame.seen t ht src hsrc pair.1 hmet
  -- what is left to show of each outcome
  have settle : ∀ {js : List Indication}, Shows js s t →
      (.error ∉ js → accountedFor js + owed s₀.descendantCountMap t.S =
        (s₀.descendantCountMap pair.1).tFiles + owed s₀.descendantCountMap rest) →
      (∀ pair ∈ t.S, ∃ src ∈ s₀.S, Counted env.toKernel s₀.disk.fs readable src.1 pair.1) →
      Accounted env readable s₀ s₁ t := by
    intro js hjs howed htS
    refine ⟨⟨is ++ js,hshows.trans hjs,fun hno => ?_⟩,htS⟩
    rw [List.mem_append,not_or] at hno
    have htold := htold hno.1
    have howed := howed hno.2
    rw [hS,owed_cons] at htold
    rw [accountedFor_append]
    omega
  cases hdealt with
  | copied hefd hjs htS =>
    have hone : (s₀.descendantCountMap pair.1).tFiles = 1 :=
      hright.unique (.file (hseen.kind ▸ hefd))
    exact settle hjs (fun _ => by rw [htS,hone]; rfl) (htS ▸ hrest)
  | skipped hjs htS =>
    refine settle hjs (fun _ => ?_) (htS ▸ hrest)
    rw [htS,hsmap]
    simp [accountedFor,skippedFiles]
  | reported hjs htS => exact settle hjs (fun hno => by simp at hno) (htS ▸ hrest)
  | again dest hjs htS =>
    refine settle hjs (fun _ => ?_) ?_
    · rw [htS,owed_cons]
      exact Nat.zero_add _
    · rw [htS]
      exact List.forall_mem_cons.mpr ⟨⟨src,hsrc,hmet⟩,hrest⟩
  | unlisted d hefd hlist hno hfs hjs htS =>
    have hefd₀ : efdAt env.toKernel s₀.disk.fs pair.1 = .dir := hseen.kind ▸ hefd
    have hshut : ¬ (absolute pair.1 ∧ readable pair.1) := by
      intro hread
      have hgrant := (hsame.listed s pair rest d hs hS hefd hlist).mpr hread.2
      obtain ⟨p,m,_,hnode,hp⟩ := efdAt_dir (hseen'.kind.trans hefd₀)
      rw [hfs] at hnode hp
      exact hno ⟨hread.1,hgrant,p,hp,FileSystem.isDir_iff.mpr ⟨m,hnode⟩⟩
    have hzero : (s₀.descendantCountMap pair.1).tFiles = 0 := hright.unique (.unlisted hefd₀ hshut)
    exact settle hjs (fun _ => by rw [htS,hzero]; rfl) (htS ▸ hrest)
  | children d entries hefd hlist hlistable hentries hjs htS =>
    have hefd₀ : efdAt env.toKernel s₀.disk.fs pair.1 = .dir := hseen.kind ▸ hefd
    have hread := (hsame.listed s pair rest d hs hS hefd hlist).mp hlistable.2.1
    obtain ⟨hsum,hbelow⟩ := @owed_children env readable s₀.descendantCountMap s₀.disk.fs pair.1 pair.2 _
      entries hslash hefd₀ hread (hseen'.entries entries hentries) hright
      fun y hy => hcount.right src hsrc y (hmet.trans hy)
    refine settle hjs (fun _ => ?_) ?_
    · rw [htS,owed_append,owed_reverse,hsum]
      exact Nat.zero_add _
    · rw [htS]
      intro pair' hp
      rcases List.mem_append.mp hp with hp | hp
      · exact ⟨src,hsrc,hmet.trans (hbelow pair' (List.mem_reverse.mp hp))⟩
      · exact hrest pair' hp

theorem populateStackFromCopyList_counts (depth : Nat) (pairs : List Pair) (hs : Paced s.disk) :
    wp (populateStackFromCopyList env depth pairs)
      (fun _ t => t.sock = s.sock ∧ t.S = pairs.reverse ++ s.S ∧
        AfterCount env.toSystem readable s.disk
          (t.counts.tFiles = s.counts.tFiles + (pairs.map fun x => (t.descendantCountMap x.1).tFiles).sum ∧
            (∀ y, FilesAt env.toKernel s.disk.fs readable y (s.descendantCountMap y).tFiles →
              FilesAt env.toKernel s.disk.fs readable y (t.descendantCountMap y).tFiles) ∧
            ∀ x ∈ pairs, ∀ y, Counted env.toKernel s.disk.fs readable x.1 y →
              FilesAt env.toKernel s.disk.fs readable y (t.descendantCountMap y).tFiles) t.disk)
      (fun _ _ => True) s := by
  induction pairs generalizing s with
  | nil => exact ⟨rfl,by simp,refl_of Quiet s.disk,hs,fun _ => ⟨by simp,fun _ h => h,by simp⟩⟩
  | cons x copyList ih =>
    have hcount : wp (countTotalStatsIntoMap env.toSystem depth x.1 s.descendantCountMap)
        (fun r d => AfterCount env.toSystem readable s.disk
          (CountsUp env.toKernel s.disk.fs readable x.1 s.descendantCountMap r.1 r.2) d)
        (fun _ _ => True) s.disk := countTotalStatsIntoMap_counts depth x.1 _ hs rfl
    rw [populateStackFromCopyList,wp_bind,wp_get,wp_bind,wp_onDisk]
    refine wp_mono hcount (fun r d hr => ?_) fun _ _ _ => trivial
    obtain ⟨itemTotals,m⟩ := r
    obtain ⟨hq,hpaced,hup⟩ := hr
    simp only [wp_bind,wp_modify,push]
    refine wp_mono (ih hpaced) (fun _ t ht => ?_) fun _ _ _ => trivial
    obtain ⟨hsock,hS,hq',hpaced',hrest⟩ := ht
    refine ⟨hsock,by simpa using hS,trans_of Quiet hq hq',hpaced',fun hagree => ?_⟩
    have hup := hup (hagree.of_prefix (Grown.log_prefix hq'))
    obtain ⟨hsum,hkept,hmet⟩ := hrest hagree
    simp only [hq.fs_eq] at hsum hkept hmet
    have hhead := hup.total.unique (hkept x.1 (hup.met x.1 .start))
    refine ⟨?_,fun y hy => hkept y (hup.kept y hy),fun x' hx' y hy => ?_⟩
    · have hadd : (s.counts + itemTotals).tFiles = s.counts.tFiles + itemTotals.tFiles := rfl
      rw [hsum,hadd,hhead,List.map_cons,List.sum_cons,Nat.add_assoc]
    · rcases List.mem_cons.mp hx' with rfl | hx'
      · exact hkept y (hup.met y hy)
      · exact hmet x' hx' y hy

/-- The task as it is set up for `pairs`. -/
def unpopulated (fs : FileSystem) (inp : Str) : CopyState :=
  .start fs inp [] (fun _ => ⟨0,0,0⟩) ⟨0,0,0⟩

theorem countedSources_of_populate {depth : Nat} {pairs : List Pair} {fs : FileSystem} {inp : Str}
    (hset : populateStackFromCopyList env depth pairs (unpopulated fs inp) = .ok () s₀)
    (hslash : ∀ pair ∈ pairs, ¬ endsWithSlash pair.1)
    (hopened : OpensAgree env.toSystem readable s₀.disk.log) :
    CountedSources env readable s₀ ∧ s₀.sock.out = [] := by
  have hcounts := @populateStackFromCopyList_counts env (unpopulated fs inp) readable depth pairs rfl
  rw [wp_of_ok hset] at hcounts
  obtain ⟨hsock,hS,hq,_,hup⟩ := hcounts
  obtain ⟨hsum,_,hmet⟩ := hup hopened
  have hfs : s₀.disk.fs = (unpopulated fs inp).disk.fs := hq.fs_eq
  rw [← hfs] at hmet
  have hS : s₀.S = pairs.reverse := hS.trans (List.append_nil _)
  refine ⟨⟨?_,?_,?_⟩,by rw [hsock]; rfl⟩
  · rw [hS,owed_reverse,hsum]
    exact Nat.zero_add _
  · rw [hS]
    exact fun pair hp => hmet pair (List.mem_reverse.mp hp)
  · rw [hS]
    exact fun pair hp => hslash pair (List.mem_reverse.mp hp)

/-- A run that comes to the end marker without an error has accounted for the files it announced. -/
theorem maincopy_accounts_files {depth n : Nat} {pairs : List Pair} {fs : FileSystem} {inp : Str}
    (hset : populateStackFromCopyList env depth pairs (unpopulated fs inp) = .ok () s₀)
    (hslash : ∀ pair ∈ pairs, ¬ endsWithSlash pair.1)
    (hsame : SourcesUnchanging env readable s₀)
    (hsize : ∀ s, InRun env s₀ s → ∀ p, env.sizeOf s.disk.fs p < 2^63)
    (hdrawn : ∀ s, InRun env s₀ s → Drawn env s) (hann : announce s₀ = .ok () s₁)
    (hend : rounds (copyRound env) n s₁ = .ok (some .finished) t) :
    ∃ cs, (final (maincopy env n) s₀).sock.out =
        .u64 s₀.counts.tFiles :: .u64 s₀.counts.tSize :: cs ∧
      (.error ∉ indications .mark cs → accountedFor (indications .mark cs) = s₀.counts.tFiles) := by
  obtain ⟨hcount,hout₀⟩ := countedSources_of_populate hset hslash hsame.opened
  -- the two totals come first
  have hs₁ : s₁.sock.out = [.u64 s₀.counts.tFiles,.u64 s₀.counts.tSize] ∧
      s₁.descendantCountMap = s₀.descendantCountMap ∧ s₁.S = s₀.S := by
    have hwp : wp announce (fun _ u => u.sock.out = [.u64 s₀.counts.tFiles,.u64 s₀.counts.tSize] ∧
        u.descendantCountMap = s₀.descendantCountMap ∧ u.S = s₀.S) (fun _ _ => True) s₀ := by
      have hlong : ∀ n, (Chunk.u64 n).encode ≠ [] := by simp [Chunk.encode,littleEndian]
      rw [announce,wp_bind,wp_get,wp_bind,wp_send_iff (hlong _)]
      refine ⟨fun _ => ?_,fun _ => trivial⟩
      rw [wp_send_iff (hlong _)]
      refine ⟨fun _ => ?_,fun _ => trivial⟩
      simp [Conn.sent,hout₀]
    rwa [wp_of_ok hann] at hwp
  obtain ⟨hout₁,hmap,hS₁⟩ := hs₁
  have hstart : Accounted env readable s₀ s₁ s₁ := by
    refine ⟨⟨[],.start s₁,fun _ => ?_⟩,fun pair hp => ⟨pair,hS₁ ▸ hp,.start⟩⟩
    rw [hS₁,hcount.total]
    exact Nat.zero_add _
  have hstep : ∀ s, InRun env s₀ s ∧ Accounted env readable s₀ s₁ s →
      wp (copyRound env) (fun r v => r.elim (InRun env s₀ v ∧ Accounted env readable s₀ s₁ v)
        fun e => e = .finished → Accounted env readable s₀ s₁ v ∧ v.S = []) (fun _ _ => True) s := by
    intro s hs
    obtain ⟨hin,hacc⟩ := hs
    refine wp_result (wp_trivial (fun r v hv => ?_) fun _ _ _ => trivial)
    cases r with
    | none =>
      exact ⟨hin.reached (.round .start trivial hv),
        hacc.round hcount hsame hmap hin (hdrawn s hin) (hsize s hin) hv⟩
    | some e =>
      intro he
      obtain rfl : e = .finished := he
      have hempty := stack_of_finished hv
      have hstays : wp (copyRound env) (fun _ t => t = s) (fun _ _ => True) s := by
        unfold copyRound
        simp only [wp_bind,wp_get,hempty,wp_pure]
      obtain rfl : v = s := (wp_of_ok hv).mp hstays
      exact ⟨hacc,hempty⟩
  have hrun := wp_rounds hstep n ⟨⟨s₁,hann,.start⟩,hstart⟩
  rw [wp_of_ok hend] at hrun
  obtain ⟨⟨⟨is,hshows,htold⟩,_⟩,hempty⟩ := hrun rfl
  obtain ⟨_,cs,hcs,hreads⟩ := hshows
  have hmain : Leaves (fun v => ∃ more, v.sock.out = t.sock.out ++ more ∧ indications .mark more = [])
      (maincopy env n) s₀ := by
    have hclose : ∀ (v : CopyState) (more : List Chunk), v.sock.out = t.sock.out ++ more →
        indications .mark more = [] →
        Leaves (fun v => ∃ more, v.sock.out = t.sock.out ++ more ∧ indications .mark more = []) (do
          onSock close
          pure (some Ending.finished)) v := by
      intro v more hout hmore
      rw [Leaves,wp_bind,wp_onSock]
      exact ⟨more,hout,hmore⟩
    have hends : ∀ ds, indications .mark ds = [] → indications .mark (.u64 EOFs_ind :: ds) = [] := by
      have hmark : markOf EOFs_ind = [] ∧ EOFs_ind ≠ SKIP_ind := by decide
      intro ds hds
      simp [indications,hmark,hds]
    unfold maincopy copyAll
    rw [Leaves,wp_bind,wp_attempt,wp_bind,wp_of_ok hann,wp_bind,wp_of_ok hend]
    simp only
    rw [wp_bind,wp_send_iff (by simp [Chunk.encode,littleEndian])]
    refine ⟨fun _ => ?_,fun _ => hclose _ [] (by simp) rfl⟩
    change wp (do
      send (.u8 RESPONSE_OK)
      pure (some Ending.finished)) _ _ _
    rw [wp_bind,wp_send_iff (by simp [Chunk.encode])]
    refine ⟨fun _ => hclose _ [.u64 EOFs_ind,.u8 RESPONSE_OK] ?_ (hends _ rfl),
      fun _ => hclose _ [.u64 EOFs_ind] ?_ (hends _ rfl)⟩
    · simp [Conn.sent]
    · simp [Conn.sent]
  obtain ⟨more,hmore,hquiet⟩ := leaves_iff.mp hmain
  refine ⟨cs ++ more,by rw [hmore,hcs,hout₁]; rfl,fun hno => ?_⟩
  have hall : indications .mark (cs ++ more) = is := by rw [hreads more,hquiet,List.append_nil]
  rw [hall] at hno ⊢
  have htold := htold hno
  rw [hempty] at htold
  exact htold

end Run

/-- `/a` onto `/b`, which is there; the client answers with a skip. -/
def unpopulatedSkip : CopyState :=
  unpopulated twoFiles [0x00]

def copySkipped : CopyState :=
  final (populateStackFromCopyList (.calm 0) 1 [(text ['/','a'],text ['/','b'])]) unpopulatedSkip

theorem maincopy_accounts_files_skipped :
    ∃ cs, (final (maincopy (.calm 0) 2) copySkipped).sock.out = .u64 1 :: .u64 1 :: cs ∧
      (.error ∉ indications .mark cs → accountedFor (indications .mark cs) = 1) := by
  obtain ⟨_,s₀,hset,_⟩ := ok_of_wp (x := populateStackFromCopyList (.calm 0) 1
    [(text ['/','a'],text ['/','b'])]) (Q := fun _ _ => True) (s := unpopulatedSkip)
    (by decide +kernel)
  obtain rfl : copySkipped = s₀ := final_ok hset
  obtain ⟨_,s₁,hann,_⟩ := ok_of_wp (x := announce) (Q := fun _ _ => True) (s := copySkipped)
    (by decide +kernel)
  obtain rfl : final announce copySkipped = s₁ := final_ok hann
  obtain ⟨_,t,hrounds,rfl⟩ := ok_of_wp (x := rounds (copyRound (.calm 0)) 2)
    (Q := fun r _ => r = some .finished) (s := final announce copySkipped) (by decide +kernel)
  have hend : endsWithin (copyRound (.calm 0)) 2 (final announce copySkipped) := by decide +kernel
  have hfile : ∀ s ∈ copySkipped :: begun (copyRound (.calm 0)) 2 (final announce copySkipped),
      efdAt (CopyEnv.calm 0).toKernel s.disk.fs (text ['/','a']) = .file ∧
        (CopyEnv.calm 0).follow s.disk.fs (text ['/','a']) = .ok [text ['a']] ∧
        s.disk.fs.isDir [text ['a']] = false := by decide +kernel
  have hsmall : ∀ s ∈ begun (copyRound (.calm 0)) 2 (final announce copySkipped),
      ∀ p ∈ s.disk.fs.paths, (CopyEnv.calm 0).sizeOf s.disk.fs p < 2^63 := by decide +kernel
  have hdecs : ∀ s ∈ begun (copyRound (.calm 0)) 2 (final announce copySkipped),
      ∀ dec ∈ decisionAt (.calm 0) s, dec.accounts := by decide +kernel
  have hsource : ∀ pair ∈ copySkipped.S, pair.1 = text ['/','a'] := by decide +kernel
  have hsame : SourcesUnchanging (.calm 0) (fun _ => True) copySkipped := by
    refine ⟨fun _ _ _ => iff_of_true rfl trivial,fun _ _ _ _ _ _ _ _ => iff_of_true rfl trivial,
      fun s hs pair hpair x hx => ?_⟩
    obtain ⟨hkind,_⟩ := hfile copySkipped List.mem_cons_self
    obtain ⟨hkind',hplace,hnotdir⟩ := hfile s (List.mem_cons_of_mem _ (hs.mem_begun hend))
    rw [hsource pair hpair] at hx
    obtain rfl := hx.cases_other fun h => by simp [hkind] at h
    refine ⟨hkind'.trans hkind.symm,fun entries hlist => ?_⟩
    obtain ⟨_,p,_,hp,hdir,_⟩ := hlist
    rw [hplace] at hp
    obtain rfl := Except.ok.inj hp
    rw [hnotdir] at hdir
    simp at hdir
  exact maincopy_accounts_files hset (by decide) hsame
    (fun s hs => sizeOf_lt (by decide) (hsmall s (hs.mem_begun hend)))
    (fun s hs dec hdec => .inl (hdecs s (hs.mem_begun hend) dec hdec)) hann hrounds

end RootHelper
