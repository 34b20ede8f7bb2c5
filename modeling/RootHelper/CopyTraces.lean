import RootHelper.Control.Traces
import RootHelper.FileCopier

/-!
The copy task once more, noting which paths it has counted, which it skips and what it asks the client.
Without the notes it is the copy task.
-/

set_option autoImplicit false

namespace RootHelper
open Posix Control

/-- A note of the task. A question is noted with the two types it is sent with and with what stands at
its two paths then. -/
inductive CopyCall where
  | counted (name : Str)
  | skipped (srcI : Str) (sk : StsSz)
  | asked (isConflict : Bool) (srcI destI : Str) (srcType destType : Byte) (srcEfd destEfd : Efd)
  deriving DecidableEq, Repr

namespace Traced

abbrev CountM := EStateM Stop (Disk × List CopyCall)

abbrev CopyM := EStateM Stop (CopyState × List CopyCall)

section Counting

variable (sys : System)

/-- `m[name] = num` -/
def put (name : Str) (num : StsSz) (m : CountMap) : CountM (StsSz × CountMap) := do
  note (.counted name)
  pure (num,Function.update m name num)

def countEntries (count : Str → CountMap → CountM (StsSz × CountMap)) :
    List (Str × Name) → StsSz → CountMap → CountM (StsSz × CountMap)
  | [], num, m => pure (num,m)
  | e :: es, num, m => do
    plain (efdL sys e.1)
    let (subNum,m) ← count e.1 m
    countEntries count es (num + subNum) m

def countTotalStatsIntoMap : Nat → Str → CountMap → CountM (StsSz × CountMap)
  | 0, _, _ => throw .diverged
  | depth+1, name, m => do
    match ← plain (existsIsFileIsDir_ sys name) with
    | .none => put name ⟨0,0,0⟩ m
    | .file => do
      let size ← plain (osGetSize sys name)
      put name ⟨1,0,size⟩ m
    | .dir => do
      let entries ← plain (openPlain sys name)
      let (num,m) ←
        countEntries sys (countTotalStatsIntoMap depth) (entries.getD []) ⟨0,1,0⟩ m
      put name num m

end Counting

variable (env : CopyEnv)

def populateStackFromCopyList (depth : Nat) : List Pair → CopyM Unit
  | [] => pure ()
  | x :: copyList => do
    let s ← plain get
    let (itemTotals,m) ←
      diskLens.noting.run (countTotalStatsIntoMap env.toSystem depth x.1 s.descendantCountMap)
    plain (modify fun s => { s with descendantCountMap := m, counts := s.counts + itemTotals })
    plain (push [x])
    populateStackFromCopyList depth copyList

def waitConflictOrErrorDec (srcI destI : Str) (isConflict : Bool) : CopyM Byte := do
  plain (send (.u64 (if isConflict then CFL_ind else ERR_ind)))
  plain (onSock (writeStringWithLen srcI))
  plain (onSock (writeStringWithLen destI))
  let s ← plain get
  note (.asked isConflict srcI destI s.lastCEInfo.srcType s.lastCEInfo.destType
    (efdAt env.toKernel s.disk.fs srcI) (efdAt env.toKernel s.disk.fs destI))
  plain (send (.u8 s.lastCEInfo.srcType))
  plain (send (.u8 s.lastCEInfo.destType))
  plain (modify fun s => { s with questions := s.questions+1 })
  match ← plain (onSock readByte) with
  | some ret => pure ret
  | none => pure (env.unread s.questions)

def unsolvableError (srcI destI : Str) : CopyM Unit := do
  let dec ← waitConflictOrErrorDec env srcI destI false
  if Decision.ofByte dec = .CD_CANCEL then throw .threadExit else pure ()

def sendSkipInfo (srcI : Str) : CopyM Unit := do
  let s ← plain get
  note (.skipped srcI (s.descendantCountMap srcI))
  plain (RootHelper.sendSkipInfo srcI)

def autoRenameDest (srcI old_destI : Str) : CopyM Unit := do
  let destI ← plain (onDisk (nonExistingDest env old_destI))
  match ← plain (onDisk (env.rename old_destI destI)) with
  | .error _ => unsolvableError env srcI destI
  | .ok _ => plain (push [(srcI,old_destI)])

def handleConflict (srcI destI : Str) (dec : Decision) (cflType : CflType) : CopyM Unit := do
  plain (recordDecision dec cflType)
  match dec with
  | .CD_SKIP | .CD_SKIP_ALL => sendSkipInfo srcI
  | .CD_OVERWRITE | .CD_OVERWRITE_ALL => do
    if (← plain (onDisk (genericDeleteBasicImpl env.toSystem destI))) < 0 then
      unsolvableError env srcI destI
    else plain (push [(srcI,destI)])
  | .CD_REN_DEST_ALL => autoRenameDest env srcI destI
  | .CD_REN_DEST => do
    let newname ← plain (onSock readStringWithLen)
    match ← plain (onDisk (env.rename destI (renamedPath destI newname))) with
    | .error _ => unsolvableError env srcI destI
    | .ok _ => plain (push [(srcI,destI)])
  | .CD_REN_SRC_ALL => plain (autoRenameSrc env srcI destI)
  | .CD_REN_SRC => do
    let newname ← plain (onSock readStringWithLen)
    plain (pushSrcWithDifferentName srcI destI newname)
  | .CD_MERGE | .CD_MERGE_ALL => plain (pushChildrenPairs env srcI destI)
  | .CD_CANCEL => throw .threadExit
  | _ => pure ()

def onExisting (srcI destI : Str) (t : CflType) : CopyM CopyRet := do
  let s ← plain get
  let dec := (s.permanentDecs t).val
  if dec = .NO_PREV_DEC then pure (.conflict t)
  else do
    if dec = .CD_SKIP_ALL then sendSkipInfo srcI else handleConflict env srcI destI dec t
    pure .OK_TYPE

def fileCopy (srcI destI : Str) : CopyM CopyRet := do
  let destEfd ← plain (onDisk (existsIsFileIsDir_ env.toSystem destI))
  let retval ←
    if destEfd = .none then plain (oscopyfile env srcI destI)
    else onExisting env srcI destI .CONFLICT_TYPE_FILE
  plain (noteError srcI destI 0x00 destEfd retval)

def dirCopy (srcI destI : Str) : CopyM CopyRet := do
  let destEfd ← plain (onDisk (existsIsFileIsDir_ env.toSystem destI))
  let retval ←
    if destEfd = .none then plain (makeDestDir env srcI destI)
    else onExisting env srcI destI .CONFLICT_TYPE_DIR
  plain (noteError srcI destI 0x01 destEfd retval)

def settlePair (pair : Pair) (efd : Efd) (ret : CopyRet) : CopyM Unit := do
  match ret with
  | .UNSOLVABLE_ERROR_TYPE => unsolvableError env pair.1 pair.2
  | .conflict t => do
    let dec ← waitConflictOrErrorDec env pair.1 pair.2 true
    handleConflict env pair.1 pair.2 (.ofByte dec) t
  | .OK_TYPE =>
    if efd = .file then plain (modify fun s => { s with currentProgress := s.currentProgress+1 })
    else pure ()

def copyRound : CopyM (Option Ending) := do
  let s ← plain get
  match s.S with
  | [] => pure (some .finished)
  | pair :: rest => do
    plain (set { s with S := rest })
    let efd ← plain (onDisk (existsIsFileIsDir_ env.toSystem pair.1))
    match efd with
    | .file => do
      settlePair env pair efd (← fileCopy env pair.1 pair.2)
      pure none
    | .dir => do
      settlePair env pair efd (← dirCopy env pair.1 pair.2)
      pure none
    | .none => pure (some .sourceGone)

def copyAll (n : Nat) : CopyM (Option Ending) := do
  plain announce
  match ← rounds (copyRound env) n with
  | some .finished => do
    plain (send (.u64 EOFs_ind))
    plain (onSock (sendBaseResponse 0 0))
    pure (some .finished)
  | r => pure r

def maincopy (n : Nat) : CopyM (Option Ending) := do
  let r ← attempt (copyAll env n) fun e =>
    match e with
    | .threadExit => pure (some .finished)
    | e => throw e
  match r with
  | some .finished => plain (onSock close)
  | _ => pure ()
  pure r

section Erasure

variable {env} {sys : System}

theorem erases_countEntries {count : Str → CountMap → CountM (StsSz × CountMap)}
    {count' : Str → CountMap → DiskM (StsSz × CountMap)} (h : ∀ x m, Erases (count x m) (count' x m))
    (es : List (Str × Name)) (num : StsSz) (m : CountMap) :
    Erases (countEntries sys count es num m) (RootHelper.countEntries sys count' es num m) := by
  induction es generalizing num m with
  | nil => exact erases_pure _
  | cons e es ih => exact (erases_plain _).bind fun _ => (h e.1 m).bind fun r => ih _ _

theorem erases_countTotalStatsIntoMap (depth : Nat) (name : Str) (m : CountMap) :
    Erases (countTotalStatsIntoMap sys depth name m)
      (RootHelper.countTotalStatsIntoMap sys depth name m) := by
  induction depth generalizing name m with
  | zero => exact erases_throw _
  | succ depth ih =>
    refine (erases_plain _).bind fun efd => ?_
    cases efd with
    | none => exact Erases.note (erases_pure _)
    | file => exact (erases_plain _).bind fun _ => Erases.note (erases_pure _)
    | dir =>
      refine (erases_plain _).bind fun entries => ?_
      exact (erases_countEntries ih _ _ _).bind fun r => Erases.note (erases_pure _)

theorem erases_populateStackFromCopyList (depth : Nat) (pairs : List Pair) :
    Erases (populateStackFromCopyList env depth pairs)
      (RootHelper.populateStackFromCopyList env depth pairs) := by
  induction pairs with
  | nil => exact erases_pure _
  | cons x copyList ih =>
    refine (erases_plain _).bind fun s => (erases_countTotalStatsIntoMap _ _ _).run.bind fun r => ?_
    exact (erases_plain _).bind fun _ => (erases_plain _).bind fun _ => ih

theorem erases_waitConflictOrErrorDec (srcI destI : Str) (isConflict : Bool) :
    Erases (waitConflictOrErrorDec env srcI destI isConflict)
      (RootHelper.waitConflictOrErrorDec env srcI destI isConflict) := by
  refine (erases_plain _).bind fun _ => (erases_plain _).bind fun _ => (erases_plain _).bind fun _ => ?_
  refine (erases_plain _).bind fun s => Erases.note ((erases_plain _).bind fun _ => ?_)
  refine (erases_plain _).bind fun _ => (erases_plain _).bind fun _ => (erases_plain _).bind fun r => ?_
  cases r <;> exact erases_pure _

theorem erases_unsolvableError (srcI destI : Str) :
    Erases (unsolvableError env srcI destI) (RootHelper.unsolvableError env srcI destI) :=
  (erases_waitConflictOrErrorDec srcI destI false).bind fun _ => (erases_throw _).ite (erases_pure _)

theorem erases_sendSkipInfo (srcI : Str) :
    Erases (sendSkipInfo srcI) (RootHelper.sendSkipInfo srcI) := fun s log =>
  (erases_plain (RootHelper.sendSkipInfo srcI)) s (log ++ [.skipped srcI (s.descendantCountMap srcI)])

theorem erases_handleConflict (srcI destI : Str) (dec : Decision) (cflType : CflType) :
    Erases (handleConflict env srcI destI dec cflType)
      (RootHelper.handleConflict env srcI destI dec cflType) := by
  have delete : Erases (do
      if (← plain (onDisk (genericDeleteBasicImpl env.toSystem destI))) < 0 then
        unsolvableError env srcI destI
      else plain (push [(srcI,destI)])) (do
      if (← onDisk (genericDeleteBasicImpl env.toSystem destI)) < 0 then
        RootHelper.unsolvableError env srcI destI
      else push [(srcI,destI)]) :=
    (erases_plain _).bind fun r => (erases_unsolvableError srcI destI).ite (erases_plain _)
  refine (erases_plain _).bind fun _ => ?_
  cases dec with
  | CD_SKIP => exact erases_sendSkipInfo srcI
  | CD_SKIP_ALL => exact erases_sendSkipInfo srcI
  | CD_OVERWRITE => exact delete
  | CD_OVERWRITE_ALL => exact delete
  | CD_REN_DEST_ALL =>
    refine (erases_plain _).bind fun dest => (erases_plain _).bind fun r => ?_
    cases r with
    | error e => exact erases_unsolvableError srcI dest
    | ok u => exact erases_plain _
  | CD_REN_DEST =>
    refine (erases_plain _).bind fun newname => (erases_plain _).bind fun r => ?_
    cases r with
    | error e => exact erases_unsolvableError srcI destI
    | ok u => exact erases_plain _
  | CD_REN_SRC_ALL => exact erases_plain _
  | CD_REN_SRC => exact (erases_plain _).bind fun _ => erases_plain _
  | CD_MERGE => exact erases_plain _
  | CD_MERGE_ALL => exact erases_plain _
  | CD_CANCEL => exact erases_throw _
  | CD_MERGE_RECURSIVE => exact erases_pure _
  | NO_PREV_DEC => exact erases_pure _
  | unknown code => exact erases_pure _

theorem erases_onExisting (srcI destI : Str) (t : CflType) :
    Erases (onExisting env srcI destI t) (RootHelper.onExisting env srcI destI t) := by
  refine (erases_plain _).bind fun s => ?_
  refine Erases.ite (erases_pure _) (Erases.ite ?_ ?_)
  · exact (erases_sendSkipInfo srcI).bind fun _ => erases_pure _
  · exact (erases_handleConflict _ _ _ _).bind fun _ => erases_pure _

theorem erases_fileCopy (srcI destI : Str) :
    Erases (fileCopy env srcI destI) (RootHelper.fileCopy env srcI destI) := by
  refine (erases_plain _).bind fun destEfd => Erases.ite ?_ ?_
  · exact (erases_plain _).bind fun _ => erases_plain _
  · exact (erases_onExisting _ _ _).bind fun _ => erases_plain _

theorem erases_dirCopy (srcI destI : Str) :
    Erases (dirCopy env srcI destI) (RootHelper.dirCopy env srcI destI) := by
  refine (erases_plain _).bind fun destEfd => Erases.ite ?_ ?_
  · exact (erases_plain _).bind fun _ => erases_plain _
  · exact (erases_onExisting _ _ _).bind fun _ => erases_plain _

theorem erases_settlePair (pair : Pair) (efd : Efd) (ret : CopyRet) :
    Erases (settlePair env pair efd ret) (RootHelper.settlePair env pair efd ret) := by
  cases ret with
  | UNSOLVABLE_ERROR_TYPE => exact erases_unsolvableError _ _
  | conflict t =>
    exact (erases_waitConflictOrErrorDec _ _ _).bind fun _ => erases_handleConflict _ _ _ _
  | OK_TYPE => exact (erases_plain _).ite (erases_pure _)

theorem erases_copyRound : Erases (copyRound env) (RootHelper.copyRound env) := by
  refine (erases_plain _).bind fun s => ?_
  cases s.S with
  | nil => exact erases_pure _
  | cons pair rest =>
    refine (erases_plain _).bind fun _ => (erases_plain _).bind fun efd => ?_
    cases efd with
    | none => exact erases_pure _
    | file =>
      exact (erases_fileCopy _ _).bind fun _ => (erases_settlePair _ _ _).bind fun _ => erases_pure _
    | dir =>
      exact (erases_dirCopy _ _).bind fun _ => (erases_settlePair _ _ _).bind fun _ => erases_pure _

theorem erases_maincopy (n : Nat) : Erases (maincopy env n) (RootHelper.maincopy env n) := by
  have all : Erases (copyAll env n) (RootHelper.copyAll env n) := by
    refine (erases_plain _).bind fun _ => (erases_copyRound.rounds n).bind fun r => ?_
    cases r with
    | none => exact erases_pure _
    | some e =>
      cases e with
      | sourceGone => exact erases_pure _
      | finished => exact (erases_plain _).bind fun _ => (erases_plain _).bind fun _ => erases_pure _
  refine (all.attempt fun e => ?_).bind fun r => ?_
  · cases e with
    | threadExit => exact erases_pure _
    | crash => exact erases_throw _
    | diverged => exact erases_throw _
  · cases r with
    | none => exact erases_pure _
    | some e =>
      cases e with
      | sourceGone => exact erases_pure _
      | finished => exact (erases_plain _).bind fun _ => erases_pure _

end Erasure

end Traced

end RootHelper
