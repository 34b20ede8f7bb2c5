import RootHelper.Counting

/-!
The copy task: a stack of (source, destination) pairs, each either copied, made a directory whose
content is pushed, or put to the client as a conflict.
-/

set_option autoImplicit false

namespace RootHelper
open Posix Control

/-- What the client (or an earlier answer for all) decides about a conflict. -/
inductive Decision where
  | CD_SKIP | CD_SKIP_ALL | CD_OVERWRITE | CD_OVERWRITE_ALL
  | CD_REN_SRC | CD_REN_DEST | CD_REN_SRC_ALL | CD_REN_DEST_ALL
  | CD_MERGE | CD_MERGE_RECURSIVE | CD_MERGE_ALL | CD_CANCEL | NO_PREV_DEC
  | unknown (code : Byte)
  deriving DecidableEq, Repr

def Decision.ofByte (b : Byte) : Decision :=
  if b = 0x00 then .CD_SKIP else if b = 0x10 then .CD_SKIP_ALL
  else if b = 0x01 then .CD_OVERWRITE else if b = 0x11 then .CD_OVERWRITE_ALL
  else if b = 0x02 then .CD_REN_SRC else if b = 0x03 then .CD_REN_DEST
  else if b = 0x12 then .CD_REN_SRC_ALL else if b = 0x13 then .CD_REN_DEST_ALL
  else if b = 0x04 then .CD_MERGE else if b = 0x14 then .CD_MERGE_RECURSIVE
  else if b = 0x24 then .CD_MERGE_ALL else if b = 0x05 then .CD_CANCEL
  else if b = 0xFF then .NO_PREV_DEC else .unknown b

def Decision.isForAll : Decision → Bool
  | CD_OVERWRITE_ALL | CD_SKIP_ALL | CD_REN_SRC_ALL | CD_REN_DEST_ALL | CD_MERGE_ALL => true
  | _ => false

/-- What `permanentDecs` can hold. -/
abbrev KeptDecision := { d : Decision // d = .NO_PREV_DEC ∨ d.isForAll }

def noDecision : KeptDecision := ⟨.NO_PREV_DEC,.inl rfl⟩

def EOF_ind : Nat := maxuint
def EOFs_ind : Nat := maxuint_2
def CFL_ind : Nat := 2^64-3
def ERR_ind : Nat := 2^64-4
def SKIP_ind : Nat := 2^64-5

inductive CflType where
  | CONFLICT_TYPE_FILE | CONFLICT_TYPE_DIR
  deriving DecidableEq, Repr

/-- `OK_TYPE`, `UNSOLVABLE_ERROR_TYPE` or a conflict. -/
inductive CopyRet where
  | OK_TYPE | UNSOLVABLE_ERROR_TYPE | conflict (t : CflType)
  deriving DecidableEq, Repr

inductive Platform where
  | linux | android32 | apple | bsd
  deriving DecidableEq, Repr

/-- `unread` is what a decision variable holds when the read into it failed, by question. -/
structure CopyEnv extends System where
  platform : Platform
  unread : Nat → Byte

structure ConflictOrErrorInfo where
  src : Str
  dest : Str
  srcType : Byte
  destType : Byte
  deriving DecidableEq, Repr

abbrev Pair := Str × Str

/-- The top of the stack comes first. -/
structure CopyState where
  disk : Disk
  sock : Conn
  S : List Pair
  descendantCountMap : Str → StsSz
  counts : StsSz
  lastCEInfo : ConflictOrErrorInfo
  permanentDecs : CflType → KeptDecision
  currentProgress : Nat
  questions : Nat

/-- A task over `pairs`, the last of which is on top, with what was counted for it. -/
def CopyState.start (fs : FileSystem) (inp : Str) (pairs : List Pair)
    (descendantCountMap : Str → StsSz) (counts : StsSz) : CopyState where
  disk := ⟨fs,[],0,0⟩
  sock := ⟨inp,[],none,false⟩
  S := pairs.reverse
  descendantCountMap := descendantCountMap
  counts := counts
  lastCEInfo := ⟨[],[],0xFF,0xFF⟩
  permanentDecs := fun _ => noDecision
  currentProgress := 0
  questions := 0

/-- Nothing is refused and every transfer moves all it is asked to. -/
def CopyEnv.calm (unread : Byte) : CopyEnv where
  cwd := []
  permits _ _ _ := true
  masked := id
  refuse _ := none
  order _ names := names
  order_perm _ _ := List.Perm.refl _
  transfer _ := 33554432
  dirSize _ := 4096
  platform := .linux
  unread _ := unread

abbrev CopyM := EStateM Stop CopyState

def diskLens : Lens CopyState Disk where
  get s := s.disk
  set s d := { s with disk := d }
  get_set _ _ := rfl
  set_get _ := rfl
  set_set _ _ _ := rfl

def sockLens : Lens CopyState Conn where
  get s := s.sock
  set s k := { s with sock := k }
  get_set _ _ := rfl
  set_get _ := rfl
  set_set _ _ _ := rfl

def onDisk {α : Type} (x : DiskM α) : CopyM α := diskLens.run x
def onSock {α : Type} (x : ConnM α) : CopyM α := sockLens.run x

theorem wp_onDisk {α : Type} {x : DiskM α} {Q : α → CopyState → Prop} {E : Stop → CopyState → Prop}
    {s : CopyState} : wp (onDisk x) Q E s ↔
      wp x (fun a d => Q a { s with disk := d }) (fun e d => E e { s with disk := d }) s.disk := wp_run

theorem wp_onSock {α : Type} {x : ConnM α} {Q : α → CopyState → Prop} {E : Stop → CopyState → Prop}
    {s : CopyState} : wp (onSock x) Q E s ↔
      wp x (fun a k => Q a { s with sock := k }) (fun e k => E e { s with sock := k }) s.sock := wp_run

def send (c : Chunk) : CopyM Unit := onSock (writeAllOrExit c)

def push (pairs : List Pair) : CopyM Unit := modify fun s => { s with S := pairs ++ s.S }

variable (env : CopyEnv)

def waitConflictOrErrorDec (srcI destI : Str) (isConflict : Bool) : CopyM Byte := do
  send (.u64 (if isConflict then CFL_ind else ERR_ind))
  onSock (writeStringWithLen srcI)
  onSock (writeStringWithLen destI)
  let s ← get
  send (.u8 s.lastCEInfo.srcType)
  send (.u8 s.lastCEInfo.destType)
  modify fun s => { s with questions := s.questions+1 }
  match ← onSock readByte with
  | some ret => pure ret
  | none => pure (env.unread s.questions)

def unsolvableError (srcI destI : Str) : CopyM Unit := do
  let dec ← waitConflictOrErrorDec env srcI destI false
  if Decision.ofByte dec = .CD_CANCEL then throw .threadExit else pure ()

def listChildrenPairs (srcI destI : Str) : CopyM (List Pair) := do
  match ← onDisk (listPlain env.toSystem srcI) with
  | some entries => pure (entries.map fun e => (pathConcat srcI e.2,pathConcat destI e.2))
  | none => pure []

def pushChildrenPairs (srcI destI : Str) : CopyM Unit := do
  let v ← listChildrenPairs env srcI destI
  push v.reverse

/-- `TO_STR` of an unsigned counter. -/
def toStr (count : Nat) : Str := text (Nat.toDigits 10 count)

/-- The first of `destI`, name0, name1, … that does not exist. The counter is an unsigned int. -/
def freeName (destParent destName : Str) : Nat → Nat → Str → DiskM Str
  | 0, _, _ => throw .diverged
  | n+1, count, destI => do
    match ← existsIsFileIsDir_ env.toSystem destI with
    | .none => pure destI
    | _ =>
      let next := pathConcat destParent (destName ++ toStr count)
      freeName destParent destName n ((count+1) % 2^32) next

def nonExistingDest (destI : Str) : DiskM Str := do
  let d ← get
  freeName env (getParentDir destI) (getFilenameFromFullPath destI) (d.fs.paths.length+2) 0 destI

def autoRenameSrc (srcI destI : Str) : CopyM Unit := do
  let dest ← onDisk (nonExistingDest env destI)
  push [(srcI,dest)]

def renamedPath (destI newname : Str) : Str := getParentDir destI ++ slash :: newname

def pushSrcWithDifferentName (srcI destI newname : Str) : CopyM Unit :=
  push [(srcI,renamedPath destI newname)]

def sendSkipInfo (srcI : Str) : CopyM Unit := do
  send (.u64 SKIP_ind)
  let s ← get
  send (.u64 (s.descendantCountMap srcI).tFiles)
  send (.u64 (s.descendantCountMap srcI).tSize)

def autoRenameDest (srcI old_destI : Str) : CopyM Unit := do
  let destI ← onDisk (nonExistingDest env old_destI)
  match ← onDisk (env.rename old_destI destI) with
  | .error _ => unsolvableError env srcI destI
  | .ok _ => push [(srcI,old_destI)]

def recordDecision (dec : Decision) (cflType : CflType) : CopyM Unit :=
  if h : dec.isForAll then
    modify fun s =>
      { s with permanentDecs := Function.update s.permanentDecs cflType ⟨dec,.inr h⟩ }
  else pure ()

def handleConflict (srcI destI : Str) (dec : Decision) (cflType : CflType) : CopyM Unit := do
  recordDecision dec cflType
  match dec with
  | .CD_SKIP | .CD_SKIP_ALL => sendSkipInfo srcI
  | .CD_OVERWRITE | .CD_OVERWRITE_ALL => do
    if (← onDisk (genericDeleteBasicImpl env.toSystem destI)) < 0 then
      unsolvableError env srcI destI
    else push [(srcI,destI)]
  | .CD_REN_DEST_ALL => autoRenameDest env srcI destI
  | .CD_REN_DEST => do
    let newname ← onSock readStringWithLen
    match ← onDisk (env.rename destI (renamedPath destI newname)) with
    | .error _ => unsolvableError env srcI destI
    | .ok _ => push [(srcI,destI)]
  | .CD_REN_SRC_ALL => autoRenameSrc env srcI destI
  | .CD_REN_SRC => do
    let newname ← onSock readStringWithLen
    pushSrcWithDifferentName srcI destI newname
  | .CD_MERGE | .CD_MERGE_ALL => pushChildrenPairs env srcI destI
  | .CD_CANCEL => throw .threadExit
  | _ => pure ()

/-- What one turn of the transfer loop has written, with the new offsets in both files; at most 0
when the loop is to end. -/
def copyChunk (input : Path) (output : Path × Name) (inOff outOff : Nat) :
    DiskM (Int × Nat × Nat) := do
  match env.platform with
  | .android32 => do
    match ← env.read input inOff COPY_CHUNK_SIZE with
    | .error _ => pure (-1,inOff,outOff)
    | .ok [] => pure (0,inOff,outOff)
    | .ok buf => do
      match ← env.write output.1 output.2 outOff buf with
      | .error _ => pure (-1,inOff + buf.length,outOff)
      | .ok w => pure (w,inOff + buf.length,outOff + w)
  | .linux => do
    match ← env.sendfile input output.1 output.2 inOff outOff COPY_CHUNK_SIZE with
    | .error _ => pure (-1,inOff,outOff)
    | .ok k => pure (k,inOff + k,outOff + k)
  | .apple | .bsd => do
    match ← env.sendfile input output.1 output.2 inOff outOff COPY_CHUNK_SIZE with
    | .error _ => pure (0,inOff,outOff)
    | .ok k => pure (k,inOff + k,outOff + k)

def copyChunks (input : Path) (output : Path × Name) : Nat → Nat → Nat → Nat → CopyM Unit
  | 0, _, _, _ => throw .diverged
  | n+1, inOff, outOff, progress => do
    let (chunkWrittenBytes,inOff',outOff') ← onDisk (copyChunk env input output inOff outOff)
    if chunkWrittenBytes ≤ 0 then pure ()
    else do
      send (.u64 (progress + chunkWrittenBytes.toNat))
      copyChunks input output n inOff' outOff' (progress + chunkWrittenBytes.toNat)

/-- What `oscopyfile` does with both files open. Each turn of the transfer loop but the last moves
on in the source, which bounds their number. -/
def copyContent (input : Path) (output : Path × Name) : CopyM Unit := do
  let s ← get
  let thisFileSize := env.sizeOf s.disk.fs input
  send (.u64 thisFileSize)
  copyChunks env input output (thisFileSize+1) 0 0 0
  send (.u64 EOF_ind)
  let s ← get
  let _ ← onDisk (env.fchmod output.1 output.2 (System.modeOf s.disk.fs input))

def oscopyfile (source destination : Str) : CopyM CopyRet := do
  match ← onDisk (env.openRead source) with
  | .error _ => pure .UNSOLVABLE_ERROR_TYPE
  | .ok input => do
    match ← onDisk (env.openCreate destination 0o644) with
    | .error _ => pure .UNSOLVABLE_ERROR_TYPE
    | .ok output => do
      copyContent env input output
      pure .OK_TYPE

/-- What an existing destination leads to: a question, or the decision kept for its kind. -/
def onExisting (srcI destI : Str) (t : CflType) : CopyM CopyRet := do
  let s ← get
  let dec := (s.permanentDecs t).val
  if dec = .NO_PREV_DEC then pure (.conflict t)
  else do
    if dec = .CD_SKIP_ALL then sendSkipInfo srcI else handleConflict env srcI destI dec t
    pure .OK_TYPE

/-- The end `fileCopy` and `dirCopy` share: what a following question will report. -/
def noteError (srcI destI : Str) (srcType : Byte) (destEfd : Efd) (retval : CopyRet) :
    CopyM CopyRet := do
  if retval = .OK_TYPE then pure ()
  else modify fun s =>
    { s with lastCEInfo := ⟨srcI,destI,srcType,if destEfd = .file then 0x00 else 0x01⟩ }
  pure retval

def fileCopy (srcI destI : Str) : CopyM CopyRet := do
  let destEfd ← onDisk (existsIsFileIsDir_ env.toSystem destI)
  let retval ←
    if destEfd = .none then oscopyfile env srcI destI
    else onExisting env srcI destI .CONFLICT_TYPE_FILE
  noteError srcI destI 0x00 destEfd retval

def makeDestDir (srcI destI : Str) : CopyM CopyRet := do
  if (← onDisk (mkpath env.toSystem destI defaultMode true)) < 0 then
    pure .UNSOLVABLE_ERROR_TYPE
  else do
    pushChildrenPairs env srcI destI
    pure .OK_TYPE

def dirCopy (srcI destI : Str) : CopyM CopyRet := do
  let destEfd ← onDisk (existsIsFileIsDir_ env.toSystem destI)
  let retval ←
    if destEfd = .none then makeDestDir env srcI destI
    else onExisting env srcI destI .CONFLICT_TYPE_DIR
  noteError srcI destI 0x01 destEfd retval

/-- What the task is set up with: each source is counted, the recursion going as deep as its tree. -/
def populateStackFromCopyList (depth : Nat) : List Pair → CopyM Unit
  | [] => pure ()
  | x :: copyList => do
    let s ← get
    let (itemTotals,m) ←
      onDisk (countTotalStatsIntoMap env.toSystem depth x.1 s.descendantCountMap)
    modify fun s => { s with descendantCountMap := m, counts := s.counts + itemTotals }
    push [x]
    populateStackFromCopyList depth copyList

/-- How the loop ends: on an empty stack, or on a source that is not there. -/
inductive Ending where
  | finished | sourceGone
  deriving DecidableEq, Repr

/-- What follows a copy attempt: the question an error or a conflict calls for. -/
def settlePair (pair : Pair) (efd : Efd) (ret : CopyRet) : CopyM Unit := do
  match ret with
  | .UNSOLVABLE_ERROR_TYPE => unsolvableError env pair.1 pair.2
  | .conflict t => do
    let dec ← waitConflictOrErrorDec env pair.1 pair.2 true
    handleConflict env pair.1 pair.2 (.ofByte dec) t
  | .OK_TYPE =>
    if efd = .file then modify fun s => { s with currentProgress := s.currentProgress+1 }
    else pure ()

def copyRound : CopyM (Option Ending) := do
  let s ← get
  match s.S with
  | [] => pure (some .finished)
  | pair :: rest => do
    set { s with S := rest }
    let efd ← onDisk (existsIsFileIsDir_ env.toSystem pair.1)
    match efd with
    | .file => do
      settlePair env pair efd (← fileCopy env pair.1 pair.2)
      pure none
    | .dir => do
      settlePair env pair efd (← dirCopy env pair.1 pair.2)
      pure none
    | .none => pure (some .sourceGone)

def announce : CopyM Unit := do
  let s ← get
  send (.u64 s.counts.tFiles)
  send (.u64 s.counts.tSize)

/-- The run inside the `try`; `none` when it is still going after `n` rounds. A source that is
gone makes `maincopy` return at once. -/
def copyAll (n : Nat) : CopyM (Option Ending) := do
  announce
  match ← rounds (copyRound env) n with
  | some .finished => do
    send (.u64 EOFs_ind)
    onSock (sendBaseResponse 0 0)
    pure (some .finished)
  | r => pure r

def maincopy (n : Nat) : CopyM (Option Ending) := do
  let r ← attempt (copyAll env n) fun e =>
    match e with
    | .threadExit => pure (some .finished)
    | e => throw e
  match r with
  | some .finished => onSock close
  | _ => pure ()
  pure r

end RootHelper
