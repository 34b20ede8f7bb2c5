import RootHelper.CopyOutcome
import RootHelper.CopyTraces

/-!
The types a question of the copy task is sent with. They are those noted at the last conflict or error,
and a decision that was kept notes none: where it fails, the question has the types of another pair.
-/

set_option autoImplicit false

namespace RootHelper
open Posix Control

section Questions

variable (env : CopyEnv)

/-- The types `fileCopy` and `dirCopy` note of a pair. -/
def seenTypes (fs : FileSystem) (pair : Pair) : Byte × Byte :=
  (if efdAt env.toKernel fs pair.1 = .dir then 0x01 else 0x00,
    if efdAt env.toKernel fs pair.2 = .file then 0x00 else 0x01)

def typesAt (s : CopyState) (pair : Pair) (t : CflType) : Byte × Byte :=
  if (s.permanentDecs t).val = .NO_PREV_DEC then seenTypes env s.disk.fs pair
  else (s.lastCEInfo.srcType,s.lastCEInfo.destType)

/-- The questions of a round for `pair`, each with the other path, the types it is sent with, and the
file system it is put in. -/
inductive Asked (s : CopyState) (pair : Pair) : Str → Byte × Byte → FileSystem → Prop
  | uncopied : efdAt env.toKernel s.disk.fs pair.1 = .file → efdAt env.toKernel s.disk.fs pair.2 = .none →
      Asked s pair pair.2 (seenTypes env s.disk.fs pair) s.disk.fs
  | unmade {r : Int} {d : Disk} : efdAt env.toKernel s.disk.fs pair.1 = .dir →
      efdAt env.toKernel s.disk.fs pair.2 = .none →
      mkpath env.toSystem pair.2 defaultMode true (env.checked s.disk pair) = .ok r d → r < 0 →
      Asked s pair pair.2 (seenTypes env s.disk.fs pair) d.fs
  | conflict {t : CflType} : conflictAt env s = some (pair,t) →
      Asked s pair pair.2 (seenTypes env s.disk.fs pair) s.disk.fs
  | undeleted {t : CflType} {dec : Decision} {r : Int} {d : Disk} : conflictAt env s = some (pair,t) →
      decisionAt env s = some dec → dec = .CD_OVERWRITE ∨ dec = .CD_OVERWRITE_ALL →
      genericDeleteBasicImpl env.toSystem pair.2 (env.checked s.disk pair) = .ok r d → r < 0 →
      Asked s pair pair.2 (typesAt env s pair t) d.fs
  | unrenamed {t : CflType} : conflictAt env s = some (pair,t) →
      decisionAt env s = some .CD_REN_DEST → Asked s pair pair.2 (typesAt env s pair t) s.disk.fs
  | unfreed {t : CflType} {dest : Str} : conflictAt env s = some (pair,t) →
      decisionAt env s = some .CD_REN_DEST_ALL →
      Denied env (env.checked s.disk pair) pair.2 .CD_REN_DEST_ALL →
      efdAt env.toKernel s.disk.fs dest = .none →
      Asked s pair dest (typesAt env s pair t) s.disk.fs

/-- `P` holds of all that a round may note. -/
structure AllowsCalls (P : CopyCall → Prop) (s : CopyState) (pair : Pair) : Prop where
  skip : (decisionAt env s = some .CD_SKIP ∨ decisionAt env s = some .CD_SKIP_ALL) →
    P (.skipped pair.1 (s.descendantCountMap pair.1))
  ask : ∀ isConflict destI types fs, Asked env s pair destI types fs →
    P (.asked isConflict pair.1 destI types.1 types.2 (efdAt env.toKernel fs pair.1)
      (efdAt env.toKernel fs destI))

end Questions

/-! ### What a round notes -/

section Round

variable {env : CopyEnv} {P : CopyCall → Prop} {s u : CopyState} {pair : Pair} {rest : List Pair}
  {log : List CopyCall} {srcI destI : Str} {t : CflType}

theorem notes_waitConflictOrErrorDec {isConflict : Bool}
    (h : P (.asked isConflict srcI destI u.lastCEInfo.srcType u.lastCEInfo.destType
      (efdAt env.toKernel u.disk.fs srcI) (efdAt env.toKernel u.disk.fs destI))) :
    Leaves (Notes P (u,log)) (Traced.waitConflictOrErrorDec env srcI destI isConflict) (u,log) := by
  have hsame : ∀ k, Notes P (u,log) ({ u with sock := k },log) := fun k => notes_of_log_eq rfl
  unfold Traced.waitConflictOrErrorDec
  rw [Leaves,wp_bind,wp_plain]
  refine wp_send (fun k₁ _ _ => ?_) fun k _ => hsame k
  rw [wp_bind,wp_plain]
  refine wp_sendString (fun k₂ _ _ => ?_) fun k _ => hsame k
  rw [wp_bind,wp_plain]
  refine wp_sendString (fun k₃ _ _ => ?_) fun k _ => hsame k
  rw [wp_bind,wp_plain,wp_get,wp_bind,wp_note]
  have hnoted : Notes P (u,log) ({ u with sock := k₃ },log ++ [.asked isConflict srcI destI
      u.lastCEInfo.srcType u.lastCEInfo.destType (efdAt env.toKernel u.disk.fs srcI)
      (efdAt env.toKernel u.disk.fs destI)]) := ⟨_,rfl,fun e he => List.mem_singleton.mp he ▸ h⟩
  refine Leaves.since hnoted (Moves.bind (notes_plain _) (fun _ => ?_) _)
  refine (notes_plain _).bind fun _ => (notes_plain _).bind fun _ => (notes_plain _).bind fun r => ?_
  cases r <;> exact moves_pure _

theorem notes_unsolvableError
    (h : P (.asked false srcI destI u.lastCEInfo.srcType u.lastCEInfo.destType
      (efdAt env.toKernel u.disk.fs srcI) (efdAt env.toKernel u.disk.fs destI))) :
    Leaves (Notes P (u,log)) (Traced.unsolvableError env srcI destI) (u,log) := by
  unfold Traced.unsolvableError
  rw [Leaves,wp_bind]
  refine wp_mono (notes_waitConflictOrErrorDec h) (fun dec v hv => ?_) fun _ _ hv => hv
  exact Leaves.since hv (((moves_throw _).ite (moves_pure _)) v)

theorem notes_sendSkipInfo (h : P (.skipped srcI (u.descendantCountMap srcI))) :
    Leaves (Notes P (u,log)) (Traced.sendSkipInfo srcI) (u,log) := by
  unfold Traced.sendSkipInfo
  rw [Leaves,wp_bind,wp_plain,wp_get,wp_bind,wp_note]
  have hnoted : Notes P (u,log) (u,log ++ [.skipped srcI (u.descendantCountMap srcI)]) :=
    ⟨_,rfl,fun e he => List.mem_singleton.mp he ▸ h⟩
  exact Leaves.since hnoted (notes_plain _ _)

/-- Where the pair is as the round has found it, and `u` has the types that it is put with. -/
structure Settling (env : CopyEnv) (s : CopyState) (pair : Pair) (t : CflType) (u : CopyState) : Prop where
  disk : u.disk = env.checked s.disk pair
  counts : u.descendantCountMap = s.descendantCountMap
  types : (u.lastCEInfo.srcType,u.lastCEInfo.destType) = typesAt env s pair t

theorem notes_handleConflict {dec : Decision} (hP : AllowsCalls env P s pair)
    (hcfl : conflictAt env s = some (pair,t)) (hdec : decisionAt env s = some dec)
    (hu : Settling env s pair t u) :
    Leaves (Notes P (u,log)) (Traced.handleConflict env pair.1 pair.2 dec t) (u,log) := by
  have hfs : u.disk.fs = s.disk.fs := hu.disk ▸ (checked_quiet s.disk pair).fs_eq
  unfold Traced.handleConflict
  rw [Leaves,wp_bind,wp_plain]
  refine wp_mono recordDecision_kept (fun _ v hv => ?_) fun _ _ _ => notes_of_log_eq rfl
  obtain ⟨decs,rfl,-⟩ := hv
  -- the error is reported with the types of the state
  have report : ∀ (dest : Str) (v : CopyState), v.lastCEInfo = u.lastCEInfo →
      Asked env s pair dest (typesAt env s pair t) v.disk.fs →
      Leaves (Notes P (u,log)) (Traced.unsolvableError env pair.1 dest) (v,log) := by
    intro dest v hinfo hask
    have hsame : Notes P (u,log) (v,log) := notes_of_log_eq rfl
    refine Leaves.since hsame (notes_unsolvableError ?_)
    have hcall := hP.ask false dest _ _ hask
    rw [← hu.types] at hcall
    rw [hinfo]
    exact hcall
  have silent : ∀ {α : Type} (x : CopyM α) (v : CopyState),
      Leaves (Notes P (u,log)) (plain x) (v,log) := fun x v =>
    Leaves.since (notes_of_log_eq rfl) (notes_plain x (v,log))
  have skip : dec = .CD_SKIP ∨ dec = .CD_SKIP_ALL → Leaves (Notes P (u,log))
      (Traced.sendSkipInfo pair.1) ({ u with permanentDecs := decs },log) := by
    intro hskip
    have hsame : Notes P (u,log) ({ u with permanentDecs := decs },log) := notes_of_log_eq rfl
    refine Leaves.since hsame (notes_sendSkipInfo ?_)
    change P (.skipped pair.1 (u.descendantCountMap pair.1))
    rw [hu.counts]
    refine hP.skip ?_
    rcases hskip with rfl | rfl
    · exact .inl hdec
    · exact .inr hdec
  have unchanged : ∀ {a b : Str} {d : Disk}, wp (env.rename a b : DiskM _)
      (fun r d' => ∀ e, r = .error e → d'.fs = d.fs) (fun _ _ => True) d :=
    System.wp_perform (fun _ _ _ => rfl) fun _ _ _ _ h => by simp at h
  have delete : dec = .CD_OVERWRITE ∨ dec = .CD_OVERWRITE_ALL → Leaves (Notes P (u,log)) (do
      if (← plain (onDisk (genericDeleteBasicImpl env.toSystem pair.2))) < 0 then
        Traced.unsolvableError env pair.1 pair.2
      else plain (push [(pair.1,pair.2)])) ({ u with permanentDecs := decs },log) := by
    intro hover
    rw [Leaves,wp_bind,wp_plain,wp_onDisk]
    refine wp_result (wp_trivial (fun r d hrun => ?_) fun _ _ _ => notes_of_log_eq rfl)
    rw [wp_ite]
    refine ⟨fun hfail => ?_,fun _ => silent _ _⟩
    refine report pair.2 { u with permanentDecs := decs, disk := d } rfl ?_
    change genericDeleteBasicImpl env.toSystem pair.2 u.disk = .ok r d at hrun
    rw [hu.disk] at hrun
    exact .undeleted hcfl hdec hover hrun hfail
  cases dec with
  | CD_SKIP => exact skip (.inl rfl)
  | CD_SKIP_ALL => exact skip (.inr rfl)
  | CD_OVERWRITE => exact delete (.inl rfl)
  | CD_OVERWRITE_ALL => exact delete (.inr rfl)
  | CD_REN_DEST_ALL =>
    change wp (Traced.autoRenameDest env pair.1 pair.2) _ _ _
    unfold Traced.autoRenameDest
    rw [wp_bind,wp_plain,wp_onDisk]
    refine wp_result (wp_nonExistingDest (fun dest d₁ hquiet hfree hsearch => ?_)
      fun _ _ _ => notes_of_log_eq rfl)
    rw [wp_bind,wp_plain,wp_onDisk]
    refine wp_result (wp_mono unchanged (fun r d hsame hrun => ?_) fun _ _ _ _ => notes_of_log_eq rfl)
    cases r with
    | ok w => exact silent _ _
    | error e =>
      change nonExistingDest env pair.2 u.disk = .ok dest d₁ at hsearch
      change efdAt env.toKernel u.disk.fs dest = .none at hfree
      have hrefused : Denied env u.disk pair.2 .CD_REN_DEST_ALL := .rename hsearch hrun
      rw [hu.disk] at hrefused
      rw [hfs] at hfree
      have hfs' : d.fs = s.disk.fs := (hsame e rfl).trans (hquiet.fs_eq.trans hfs)
      refine report dest { u with permanentDecs := decs, disk := d } rfl ?_
      exact hfs' ▸ .unfreed hcfl hdec hrefused hfree
  | CD_REN_DEST =>
    simp only [wp_bind,wp_plain]
    rw [wp_onSock]
    refine wp_trivial (fun newname k => ?_) fun _ _ => notes_of_log_eq rfl
    rw [wp_onDisk]
    refine wp_mono unchanged (fun r d hsame => ?_) fun _ _ _ => notes_of_log_eq rfl
    cases r with
    | ok w => exact silent _ _
    | error e =>
      have hfs' : d.fs = s.disk.fs := (hsame e rfl).trans hfs
      refine report pair.2 { u with permanentDecs := decs, disk := d, sock := k } rfl ?_
      exact hfs' ▸ .unrenamed hcfl hdec
  | CD_REN_SRC_ALL => exact silent _ _
  | CD_REN_SRC =>
    have hall : Moves (Notes P) (do
        let newname ← plain (onSock readStringWithLen)
        plain (pushSrcWithDifferentName pair.1 pair.2 newname)) :=
      (notes_plain _).bind fun _ => notes_plain _
    exact Leaves.since (notes_of_log_eq rfl) (hall _)
  | CD_MERGE => exact silent _ _
  | CD_MERGE_ALL => exact silent _ _
  | CD_CANCEL => exact notes_of_log_eq rfl
  | CD_MERGE_RECURSIVE => exact notes_of_log_eq rfl
  | NO_PREV_DEC => exact notes_of_log_eq rfl
  | unknown code => exact notes_of_log_eq rfl

theorem notes_asked (hP : AllowsCalls env P s pair) (hcfl : conflictAt env s = some (pair,t))
    (hno : (s.permanentDecs t).val = .NO_PREV_DEC) {info : ConflictOrErrorInfo}
    (hinfo : (info.srcType,info.destType) = seenTypes env s.disk.fs pair) :
    Leaves (Notes P ({ env.begins s pair rest with lastCEInfo := info },log)) (do
      let dec ← Traced.waitConflictOrErrorDec env pair.1 pair.2 true
      Traced.handleConflict env pair.1 pair.2 (.ofByte dec) t)
      ({ env.begins s pair rest with lastCEInfo := info },log) := by
  have hfs : (env.checked s.disk pair).fs = s.disk.fs := (checked_quiet s.disk pair).fs_eq
  have htypes : (info.srcType,info.destType) = typesAt env s pair t := by rw [typesAt,if_pos hno,hinfo]
  have hanswer : wp (waitConflictOrErrorDec env pair.1 pair.2 true)
      (fun dec v => dec = answerAt env s ∧ Settling env s pair t v) (fun _ _ => True)
      { env.begins s pair rest with lastCEInfo := info } :=
    wp_waitConflictOrErrorDec (fun _ _ _ _ => ⟨rfl,rfl,rfl,htypes⟩) fun _ _ => trivial
  have hask : P (.asked true pair.1 pair.2 info.srcType info.destType
      (efdAt env.toKernel (env.checked s.disk pair).fs pair.1)
      (efdAt env.toKernel (env.checked s.disk pair).fs pair.2)) := by
    have hcall := hP.ask true pair.2 _ _ (.conflict hcfl)
    rw [← hinfo] at hcall
    rw [hfs]
    exact hcall
  rw [Leaves,wp_bind]
  refine wp_mono (wp_and (notes_waitConflictOrErrorDec hask)
    ((Traced.erases_waitConflictOrErrorDec _ _ _).wp hanswer)) (fun dec v hv => ?_) fun _ _ hv => hv.1
  obtain ⟨hnotes,rfl,hsettling⟩ := hv
  have hdec : decisionAt env s = some (.ofByte (answerAt env s)) :=
    decisionAt_of_conflict hcfl (if_pos hno).symm
  exact Leaves.since hnotes (notes_handleConflict hP hcfl hdec hsettling)

theorem notes_item (hP : AllowsCalls env P s pair) {efd : Efd} {srcType : Byte} {body : CopyM CopyRet}
    (hsrcType : srcType = if efdAt env.toKernel s.disk.fs pair.1 = .dir then 0x01 else 0x00)
    (hcfl : efdAt env.toKernel s.disk.fs pair.2 ≠ .none → conflictAt env s = some (pair,t))
    (hbody : efdAt env.toKernel s.disk.fs pair.2 = .none → wp body
      (fun r v => r = .OK_TYPE ∨ r = .UNSOLVABLE_ERROR_TYPE ∧
        Asked env s pair pair.2 (seenTypes env s.disk.fs pair) v.disk.fs)
      (fun _ _ => True) (env.begins s pair rest)) :
    wp (do
      let destEfd ← plain (onDisk (existsIsFileIsDir_ env.toSystem pair.2))
      let retval ←
        if destEfd = .none then plain body else Traced.onExisting env pair.1 pair.2 t
      plain (noteError pair.1 pair.2 srcType destEfd retval))
      (fun ret v => Leaves (Notes P (s,log)) (Traced.settlePair env pair efd ret) v)
      (fun _ v => Notes P (s,log) v)
      ({ s with S := rest, disk := final (existsIsFileIsDir_ env.toSystem pair.1) s.disk },log) := by
  have hstart : Notes P (s,log) (env.begins s pair rest,log) := notes_of_log_eq rfl
  have settled : ∀ v : CopyState × List CopyCall, Notes P (s,log) v →
      wp (plain (noteError pair.1 pair.2 srcType (efdAt env.toKernel s.disk.fs pair.2) .OK_TYPE))
        (fun ret w => Leaves (Notes P (s,log)) (Traced.settlePair env pair efd ret) w)
        (fun _ w => Notes P (s,log) w) v := by
    intro v hv
    rw [wp_plain,noteError,if_pos rfl]
    exact Leaves.since hv (((notes_plain _).ite (moves_pure _)) v)
  rw [wp_bind,wp_plain,wp_onDisk]
  refine wp_existsIsFileIsDir_final fun _ => ?_
  simp only [(efdAt_quiet pair.1 s.disk).fs_eq]
  change wp _ _ _ (env.begins s pair rest,log)
  have hseen : ((srcType,if efdAt env.toKernel s.disk.fs pair.2 = .file then 0x00 else 0x01) : Byte × Byte) =
      seenTypes env s.disk.fs pair := by rw [hsrcType,seenTypes]
  by_cases hn : efdAt env.toKernel s.disk.fs pair.2 = .none
  · rw [if_pos hn,wp_bind,wp_plain]
    refine wp_mono (hbody hn) (fun r v hv => ?_) fun _ _ _ => notes_of_log_eq rfl
    rcases hv with rfl | ⟨rfl,hask⟩
    · exact settled (v,log) (notes_of_log_eq rfl)
    · have hne : CopyRet.UNSOLVABLE_ERROR_TYPE ≠ .OK_TYPE := by simp
      rw [wp_plain,noteError,if_neg hne,wp_bind,wp_modify,wp_pure]
      have hcall := hP.ask false pair.2 _ _ hask
      rw [← hseen] at hcall
      exact Leaves.since (notes_of_log_eq rfl) (notes_unsolvableError hcall)
  · have hconflict := hcfl hn
    rw [if_neg hn,wp_bind,Traced.onExisting,wp_bind,wp_plain,wp_get]
    by_cases hno : (s.permanentDecs t).val = .NO_PREV_DEC
    · change wp (if (s.permanentDecs t).val = .NO_PREV_DEC then _ else _) _ _ _
      have hne : CopyRet.conflict t ≠ .OK_TYPE := by simp
      rw [if_pos hno,wp_pure,wp_plain,noteError,if_neg hne,wp_bind,wp_modify,wp_pure]
      exact Leaves.since (notes_of_log_eq rfl) (notes_asked hP hconflict hno hseen)
    · change wp (if (s.permanentDecs t).val = .NO_PREV_DEC then _ else _) _ _ _
      have hdec : decisionAt env s = some (s.permanentDecs t).val :=
        decisionAt_of_conflict hconflict (if_neg hno).symm
      have hsettling : Settling env s pair t (env.begins s pair rest) :=
        ⟨rfl,rfl,by rw [typesAt,if_neg hno]; rfl⟩
      rw [if_neg hno,wp_ite]
      refine ⟨fun hskip => ?_,fun _ => ?_⟩
      · rw [wp_bind]
        refine wp_mono (Leaves.since hstart (notes_sendSkipInfo ?_)) (fun _ v hv => ?_) fun _ _ hv => hv
        · exact hP.skip (.inr (hdec.trans (congrArg some hskip)))
        · exact settled v hv
      · rw [wp_bind]
        refine wp_mono (Leaves.since hstart (notes_handleConflict hP hconflict hdec hsettling))
          (fun _ v hv => ?_) fun _ _ hv => hv
        exact settled v hv

theorem oscopyfile_asked (hefd : efdAt env.toKernel s.disk.fs pair.1 = .file)
    (hfree : efdAt env.toKernel s.disk.fs pair.2 = .none) :
    wp (oscopyfile env pair.1 pair.2)
      (fun r v => r = .OK_TYPE ∨ r = .UNSOLVABLE_ERROR_TYPE ∧
        Asked env s pair pair.2 (seenTypes env s.disk.fs pair) v.disk.fs)
      (fun _ _ => True) (env.begins s pair rest) := by
  have hfs : (env.begins s pair rest).disk.fs = s.disk.fs := (checked_quiet s.disk pair).fs_eq
  refine wp_oscopyfile_eq (by rw [hfs]; exact hfree) (fun d _ hd => ?_)
    (fun _ _ _ _ _ _ _ _ _ _ _ _ _ _ _ => .inl rfl) fun _ _ _ _ _ _ _ _ _ _ => trivial
  exact .inr ⟨rfl,(hd.trans hfs) ▸ .uncopied hefd hfree⟩

theorem makeDestDir_asked (hefd : efdAt env.toKernel s.disk.fs pair.1 = .dir)
    (hfree : efdAt env.toKernel s.disk.fs pair.2 = .none) :
    wp (makeDestDir env pair.1 pair.2)
      (fun r v => r = .OK_TYPE ∨ r = .UNSOLVABLE_ERROR_TYPE ∧
        Asked env s pair pair.2 (seenTypes env s.disk.fs pair) v.disk.fs)
      (fun _ _ => True) (env.begins s pair rest) := by
  unfold makeDestDir
  rw [wp_bind,wp_onDisk]
  refine wp_result (wp_trivial (fun r d hrun => ?_) fun _ _ _ => trivial)
  rw [wp_ite]
  refine ⟨fun hfail => .inr ⟨rfl,.unmade hefd hfree hrun hfail⟩,fun _ => ?_⟩
  rw [wp_bind]
  exact wp_trivial (fun _ _ => .inl rfl) fun _ _ => trivial

theorem notes_copyRound (h : ∀ pair rest, s.S = pair :: rest → AllowsCalls env P s pair) :
    Leaves (Notes P (s,log)) (Traced.copyRound env) (s,log) := by
  unfold Traced.copyRound
  rw [Leaves,wp_bind,wp_plain,wp_get]
  cases hS : s.S with
  | nil => exact refl_of (Notes P) _
  | cons pair rest =>
    have hP := h pair rest hS
    simp only [wp_bind,wp_plain,wp_set]
    rw [wp_onDisk]
    refine wp_existsIsFileIsDir_final fun _ => ?_
    cases he : efdAt env.toKernel s.disk.fs pair.1 with
    | none => exact notes_of_log_eq rfl
    | file =>
      have hitem := @notes_item env P s pair rest log .CONFLICT_TYPE_FILE hP .file 0x00 _
        (by rw [he]; rfl) (fun hn => by simp [conflictAt,hS,hn,he]) fun hn => oscopyfile_asked he hn
      simp only [wp_bind]
      exact hitem
    | dir =>
      have hitem := @notes_item env P s pair rest log .CONFLICT_TYPE_DIR hP .dir 0x01 _
        (by rw [he]; rfl) (fun hn => by simp [conflictAt,hS,hn,he]) fun hn => makeDestDir_asked he hn
      simp only [wp_bind]
      exact hitem

theorem notes_maincopy {s₀ : CopyState}
    (h : ∀ s pair rest, InRun env s₀ s → s.S = pair :: rest → AllowsCalls env P s pair) (n : Nat) :
    Leaves (Notes P (s₀,log)) (Traced.maincopy env n) (s₀,log) := by
  have all : Leaves (Notes P (s₀,log)) (Traced.copyAll env n) (s₀,log) := by
    unfold Traced.copyAll
    rw [Leaves,wp_bind,wp_plain]
    refine wp_result (wp_trivial (fun _ s₁ hann => ?_) fun _ _ _ => notes_of_log_eq rfl)
    have hstart : Notes P (s₀,log) (s₁,log) := notes_of_log_eq rfl
    have hrounds : Leaves (Notes P (s₁,log)) (rounds (Traced.copyRound env) n) (s₁,log) :=
      notes_rounds Traced.erases_copyRound (fun s log' hreach =>
        notes_copyRound fun pair rest hS => h s pair rest ⟨s₁,hann,hreach⟩ hS) n log
    rw [wp_bind]
    refine wp_mono (Leaves.since hstart hrounds) (fun r v hv => ?_) fun _ _ hv => hv
    cases r with
    | none => exact hv
    | some e =>
      cases e with
      | sourceGone => exact hv
      | finished =>
        have hends : Moves (Notes P) (do
            plain (send (.u64 EOFs_ind))
            plain (onSock (sendBaseResponse 0 0))
            pure (some Ending.finished) : Traced.CopyM _) :=
          (notes_plain _).bind fun _ => (notes_plain _).bind fun _ => moves_pure _
        exact Leaves.since hv (hends v)
  have closes : Moves (Notes P) (do
      plain (onSock close)
      pure (some Ending.finished) : Traced.CopyM _) := (notes_plain _).bind fun _ => moves_pure _
  unfold Traced.maincopy
  rw [Leaves,wp_bind,wp_attempt]
  refine wp_mono all (fun r v hv => ?_) fun e v hv => ?_
  · cases r with
    | none => exact hv
    | some e =>
      cases e with
      | sourceGone => exact hv
      | finished => exact Leaves.since hv (closes v)
  · cases e with
    | threadExit => exact Leaves.since hv (closes v)
    | crash => exact hv
    | diverged => exact hv

end Round

/-! ### The types -/

def typeByte : Efd → Option Byte
  | .file => some 0x00
  | .dir => some 0x01
  | .none => none

def CopyCall.Typed : CopyCall → Prop
  | .asked _ _ _ srcType destType srcEfd destEfd =>
    typeByte srcEfd = some srcType ∧ (destEfd ≠ .none → typeByte destEfd = some destType)
  | _ => True

/-- Where a kept decision cannot be carried out, the types noted last are those of the pair; and what
was deleted or made in vain leaves the source where it was and no file at the destination. -/
structure Informed (env : CopyEnv) (s : CopyState) (pair : Pair) : Prop where
  kept : ∀ t, conflictAt env s = some (pair,t) → (s.permanentDecs t).val ≠ .NO_PREV_DEC →
    Denied env (env.checked s.disk pair) pair.2 (s.permanentDecs t).val →
    typeByte (efdAt env.toKernel s.disk.fs pair.1) = some s.lastCEInfo.srcType ∧
      ((s.permanentDecs t).val = .CD_OVERWRITE_ALL →
        typeByte (efdAt env.toKernel s.disk.fs pair.2) = some s.lastCEInfo.destType)
  spared : ∀ dec r d, decisionAt env s = some dec → dec = .CD_OVERWRITE ∨ dec = .CD_OVERWRITE_ALL →
    genericDeleteBasicImpl env.toSystem pair.2 (env.checked s.disk pair) = .ok r d → r < 0 →
    efdAt env.toKernel d.fs pair.1 ≠ .none
  unmade : ∀ r d, efdAt env.toKernel s.disk.fs pair.1 = .dir →
    efdAt env.toKernel s.disk.fs pair.2 = .none →
    mkpath env.toSystem pair.2 defaultMode true (env.checked s.disk pair) = .ok r d → r < 0 →
    efdAt env.toKernel d.fs pair.2 ≠ .file

section Types

variable {env : CopyEnv} {s : CopyState} {pair : Pair} {t : CflType}

theorem efdAt_of_le {k : Kernel} {fs fs' : FileSystem} {x : Str} (hle : fs.Le fs')
    (h : efdAt k fs x ≠ .none) : efdAt k fs' x = efdAt k fs x := by
  unfold efdAt at h ⊢
  cases hn : Kernel.nodeAt fs (k.glance fs x) with
  | error e => simp [hn] at h
  | ok n =>
    obtain ⟨q,hq,hnode⟩ := Kernel.nodeAt_ok hn
    rw [Kernel.glance_le hle hq]
    simp [Kernel.nodeAt,bind,Except.bind,hle q n hnode]

theorem deleted_le {sys : System} {path : Str} {d d' : Disk} {r : Int}
    (h : genericDeleteBasicImpl sys path d = .ok r d') : d'.fs.Le d.fs := by
  have hgrown := @genericDeleteBasicImpl_deletes sys path d
  rw [Leaves,wp_of_ok h] at hgrown
  obtain ⟨es,_,hist⟩ := hgrown
  refine @History.invariant _ _ _ _ (fun f => f.Le d.fs) hist (FileSystem.Le.refl _) ?_
  intro f e hle he
  unfold Event.apply
  cases hc : e.change with
  | none => exact hle
  | some c =>
    obtain ⟨_,q,_,rfl,_⟩ := he c hc
    exact (erase_le f q).trans hle

theorem made_le {sys : System} {path : Str} {mode : Nat} {exist_ok : Bool} {d d' : Disk} {r : Int}
    (h : mkpath sys path mode exist_ok d = .ok r d') : d.fs.Le d'.fs := by
  have hgrown := moves_mkpath sys path mode exist_ok d
  rw [Leaves,wp_of_ok h] at hgrown
  exact le_of_grown_makes (grown_makes_of_makesDir hgrown)

theorem typeByte_seen {fs : FileSystem} (hsrc : efdAt env.toKernel fs pair.1 ≠ .none) :
    typeByte (efdAt env.toKernel fs pair.1) = some (seenTypes env fs pair).1 ∧
      (efdAt env.toKernel fs pair.2 ≠ .none →
        typeByte (efdAt env.toKernel fs pair.2) = some (seenTypes env fs pair).2) := by
  unfold seenTypes
  constructor
  · cases h : efdAt env.toKernel fs pair.1 with
    | none => exact absurd h hsrc
    | file => rfl
    | dir => rfl
  · intro hdest
    cases h : efdAt env.toKernel fs pair.2 with
    | none => exact absurd h hdest
    | file => rfl
    | dir => rfl

theorem conflict_there (h : conflictAt env s = some (pair,t)) :
    (∃ rest, s.S = pair :: rest) ∧ efdAt env.toKernel s.disk.fs pair.1 ≠ .none ∧
      efdAt env.toKernel s.disk.fs pair.2 ≠ .none := by
  unfold conflictAt at h
  split at h
  · simp at h
  · rename_i top rest hS
    split_ifs at h with hdest
    split at h
    · rename_i he
      obtain ⟨rfl,_⟩ := Prod.mk.inj (Option.some.inj h)
      exact ⟨⟨rest,hS⟩,by simp [he],hdest⟩
    · rename_i he
      obtain ⟨rfl,_⟩ := Prod.mk.inj (Option.some.inj h)
      exact ⟨⟨rest,hS⟩,by simp [he],hdest⟩
    · simp at h

theorem Denied.overwrites {d : Disk} {destI : Str} {dec : Decision} (h : Denied env d destI dec)
    (hnot : dec ≠ .CD_REN_DEST_ALL) : dec = .CD_OVERWRITE ∨ dec = .CD_OVERWRITE_ALL := by
  cases h with
  | delete hover _ _ => exact hover
  | rename _ _ => exact absurd rfl hnot

theorem kept_not_once {kept : KeptDecision} {dec : Decision}
    (h : dec = .CD_OVERWRITE ∨ dec = .CD_REN_DEST) : kept.val ≠ dec := by
  intro he
  have hkept := kept.property
  rw [he] at hkept
  rcases h with rfl | rfl <;> simp [Decision.isForAll] at hkept

theorem Informed.types (h : Informed env s pair) (hcfl : conflictAt env s = some (pair,t))
    {dec : Decision} (hdec : decisionAt env s = some dec)
    (hrefused : (s.permanentDecs t).val ≠ .NO_PREV_DEC →
      Denied env (env.checked s.disk pair) pair.2 dec) :
    typeByte (efdAt env.toKernel s.disk.fs pair.1) = some (typesAt env s pair t).1 ∧
      (dec ≠ .CD_REN_DEST_ALL →
        typeByte (efdAt env.toKernel s.disk.fs pair.2) = some (typesAt env s pair t).2) := by
  obtain ⟨_,hsrc,hdest⟩ := conflict_there hcfl
  unfold typesAt
  by_cases hno : (s.permanentDecs t).val = .NO_PREV_DEC
  · rw [if_pos hno]
    obtain ⟨htype,htype'⟩ := @typeByte_seen env pair s.disk.fs hsrc
    exact ⟨htype,fun _ => htype' hdest⟩
  · rw [if_neg hno]
    have hkept : decisionAt env s = some (s.permanentDecs t).val :=
      decisionAt_of_conflict hcfl (if_neg hno).symm
    obtain rfl := Option.some.inj (hdec.symm.trans hkept)
    obtain ⟨htype,htype'⟩ := h.kept t hcfl hno (hrefused hno)
    refine ⟨htype,fun hnot => htype' ?_⟩
    exact ((hrefused hno).overwrites hnot).resolve_left (kept_not_once (.inl rfl))

theorem Asked.typed {destI : Str} {types : Byte × Byte} {fs : FileSystem} (h : Informed env s pair)
    (hask : Asked env s pair destI types fs) :
    typeByte (efdAt env.toKernel fs pair.1) = some types.1 ∧
      (efdAt env.toKernel fs destI ≠ .none → typeByte (efdAt env.toKernel fs destI) = some types.2) := by
  cases hask with
  | uncopied hsrc hdest => exact typeByte_seen (by simp [hsrc])
  | unmade hsrc hdest hmade hfail =>
    have hthere : efdAt env.toKernel s.disk.fs pair.1 ≠ .none := by simp [hsrc]
    have hle := made_le hmade
    rw [(checked_quiet s.disk pair).fs_eq] at hle
    have hno := h.unmade _ _ hsrc hdest hmade hfail
    obtain ⟨htype,_⟩ := @typeByte_seen env pair s.disk.fs hthere
    refine ⟨by rw [efdAt_of_le hle hthere]; exact htype,fun hnew => ?_⟩
    have hseen : (seenTypes env s.disk.fs pair).2 = 0x01 := by simp [seenTypes,hdest]
    rw [hseen]
    cases he : efdAt env.toKernel _ pair.2 with
    | none => exact absurd he hnew
    | file => exact absurd he hno
    | dir => rfl
  | conflict hcfl =>
    obtain ⟨_,hsrc,_⟩ := conflict_there hcfl
    exact typeByte_seen hsrc
  | undeleted hcfl hdec hover hdel hfail =>
    have hle := deleted_le hdel
    rw [(checked_quiet s.disk pair).fs_eq] at hle
    obtain ⟨htype,htype'⟩ := h.types hcfl hdec fun _ => .delete hover hdel hfail
    have hsrc := h.spared _ _ _ hdec hover hdel hfail
    refine ⟨by rw [← efdAt_of_le hle hsrc]; exact htype,fun hdest => ?_⟩
    rw [← efdAt_of_le hle hdest]
    refine htype' ?_
    rcases hover with rfl | rfl <;> simp
  | @unrenamed t hcfl hdec =>
    obtain ⟨_,hsrc,_⟩ := conflict_there hcfl
    have hno : (s.permanentDecs t).val = .NO_PREV_DEC := by
      by_contra hkept
      have hother := hdec.symm.trans (decisionAt_of_conflict hcfl (if_neg hkept).symm)
      exact kept_not_once (.inr rfl) (Option.some.inj hother).symm
    rw [typesAt,if_pos hno]
    exact typeByte_seen hsrc
  | unfreed hcfl hdec hrefused hfree =>
    obtain ⟨htype,_⟩ := h.types hcfl hdec fun _ => hrefused
    exact ⟨htype,fun hdest => absurd hfree hdest⟩

/-- Every question of a run is sent with the types of its paths, as long as no kept decision fails for a
pair of other types than those noted last. -/
theorem questions_typed (env : CopyEnv) (s₀ : CopyState)
    (h : ∀ s pair rest, InRun env s₀ s → s.S = pair :: rest → Informed env s pair) (n : Nat) :
    ∀ e ∈ (final (Traced.maincopy env n) (s₀,[])).2, e.Typed := by
  have hnotes : Leaves (Notes CopyCall.Typed (s₀,[])) (Traced.maincopy env n) (s₀,[]) := by
    refine notes_maincopy (fun s pair rest hs hS => ⟨fun _ => trivial,fun _ destI types fs hask => ?_⟩) n
    exact hask.typed (h s pair rest hs hS)
  exact (leaves_iff.mp hnotes).all

end Types

/-- `/a`, `/b` and `/c` are files, `/d` is an empty directory. -/
def filesAndDir : FileSystem :=
  .ofEntries [([],.dir 0o755),([text ['a']],.file (text ['x']) 0o644),
    ([text ['b']],.file (text ['y']) 0o644),([text ['c']],.file (text ['z']) 0o644),
    ([text ['d']],.dir 0o755)] (by decide)

/-- `/a` onto `/b`, where the client answers with an overwrite for all, and then onto `dest`. -/
def overwriteBoth (dest : Str) : CopyState :=
  .start filesAndDir [0x11,0x00] [(text ['/','a'],dest),(text ['/','a'],text ['/','b'])]
    (fun _ => ⟨0,0,0⟩) ⟨2,0,2⟩

/-- A directory of that spelling is not removed, and its error is sent with the types of two files. -/
theorem questions_stale :
    (final (Traced.maincopy (.calm 0) 4) (overwriteBoth (text ['/','d','/','.']),[])).2 =
      [.asked true (text ['/','a']) (text ['/','b']) 0x00 0x00 .file .file,
        .asked false (text ['/','a']) (text ['/','d','/','.']) 0x00 0x00 .file .dir] ∧
    ¬ ∀ e ∈ (final (Traced.maincopy (.calm 0) 4) (overwriteBoth (text ['/','d','/','.']),[])).2,
      e.Typed := by
  have hlog : (final (Traced.maincopy (.calm 0) 4) (overwriteBoth (text ['/','d','/','.']),[])).2 =
      [.asked true (text ['/','a']) (text ['/','b']) 0x00 0x00 .file .file,
        .asked false (text ['/','a']) (text ['/','d','/','.']) 0x00 0x00 .file .dir] := by
    decide +kernel
  refine ⟨hlog,fun hall => ?_⟩
  rw [hlog] at hall
  have htyped : CopyCall.Typed
      (.asked false (text ['/','a']) (text ['/','d','/','.']) 0x00 0x00 .file .dir) :=
    hall _ (by simp)
  exact absurd (htyped.2 (by simp)) (by decide)

/-- Where the second is a file too the types kept are right. -/
theorem questions_typed_files :
    (final (Traced.maincopy (.calm 0) 5) (overwriteBoth (text ['/','c']),[])).2 =
      [.asked true (text ['/','a']) (text ['/','b']) 0x00 0x00 .file .file] ∧
    ∀ e ∈ (final (Traced.maincopy (.calm 0) 5) (overwriteBoth (text ['/','c']),[])).2, e.Typed := by
  refine ⟨by decide +kernel,?_⟩
  have hend : endsWithin (copyRound (.calm 0)) 5 (final announce (overwriteBoth (text ['/','c']))) := by
    decide +kernel
  have hstates : ∀ s ∈ begun (copyRound (.calm 0)) 5 (final announce (overwriteBoth (text ['/','c']))),
      ∀ pair ∈ s.S.head?, efdAt (CopyEnv.calm 0).toKernel s.disk.fs pair.1 = .file ∧
        efdAt (CopyEnv.calm 0).toKernel s.disk.fs pair.2 ≠ .dir := by decide +kernel
  have hnoted : ∀ s ∈ begun (copyRound (.calm 0)) 5 (final announce (overwriteBoth (text ['/','c']))),
      (s.permanentDecs .CONFLICT_TYPE_FILE).val = .NO_PREV_DEC ∧
        (s.permanentDecs .CONFLICT_TYPE_DIR).val = .NO_PREV_DEC ∨
      s.lastCEInfo.srcType = 0x00 ∧ s.lastCEInfo.destType = 0x00 := by decide +kernel
  have hstays : ∀ s ∈ begun (copyRound (.calm 0)) 5 (final announce (overwriteBoth (text ['/','c']))),
      ∀ pair ∈ s.S.head?, wp (genericDeleteBasicImpl (CopyEnv.calm 0).toSystem pair.2)
        (fun _ d => efdAt (CopyEnv.calm 0).toKernel d.fs pair.1 ≠ .none) (fun _ _ => True)
        ((CopyEnv.calm 0).checked s.disk pair) := by decide +kernel
  refine questions_typed (.calm 0) (overwriteBoth (text ['/','c'])) (fun s pair rest hs hS => ?_) 5
  have hmem := hs.mem_begun hend
  have hhead : pair ∈ s.S.head? := by simp [hS]
  obtain ⟨hsrc,hdest⟩ := hstates s hmem pair hhead
  refine ⟨fun t hcfl hkept _ => ?_,fun dec r d _ _ hdel _ => ?_,fun r d hdir => ?_⟩
  · have hthere := (conflict_there hcfl).2.2
    have hfile : efdAt (CopyEnv.calm 0).toKernel s.disk.fs pair.2 = .file := by
      cases he : efdAt (CopyEnv.calm 0).toKernel s.disk.fs pair.2 with
      | none => exact absurd he hthere
      | file => rfl
      | dir => exact absurd he hdest
    rcases hnoted s hmem with ⟨hnone,hnone'⟩ | ⟨hsame,hsame'⟩
    · cases t with
      | CONFLICT_TYPE_FILE => exact absurd hnone hkept
      | CONFLICT_TYPE_DIR => exact absurd hnone' hkept
    · exact ⟨by rw [hsrc,hsame]; rfl,fun _ => by rw [hfile,hsame']; rfl⟩
  · exact (wp_of_ok hdel).mp (hstays s hmem pair hhead)
  · simp [hsrc] at hdir

end RootHelper
