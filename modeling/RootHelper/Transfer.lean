import RootHelper.Counting
import RootHelper.Protocol

/-!
Uploading trees to a remote party and downloading them from one: the recursion that sends what there
is, and the loop that makes files and directories of what comes in.
-/

set_option autoImplicit false

namespace RootHelper
open Posix Control

/-- `offset` is where reading or writing the open file goes on. -/
structure Transfer where
  disk : Disk
  offset : Nat
  cl : Conn
  rcl : Conn

abbrev TransferM := EStateM Stop Transfer

namespace Transfer

def diskPart : Lens Transfer Disk where
  get s := s.disk
  set s d := { s with disk := d }
  get_set _ _ := rfl
  set_get _ := rfl
  set_set _ _ _ := rfl

def filePart : Lens Transfer (Disk × Nat) where
  get s := (s.disk,s.offset)
  set s f := { s with disk := f.1, offset := f.2 }
  get_set _ _ := rfl
  set_get _ := rfl
  set_set _ _ _ := rfl

def clPart : Lens Transfer Conn where
  get s := s.cl
  set s k := { s with cl := k }
  get_set _ _ := rfl
  set_get _ := rfl
  set_set _ _ _ := rfl

def rclPart : Lens Transfer Conn where
  get s := s.rcl
  set s k := { s with rcl := k }
  get_set _ _ := rfl
  set_get _ := rfl
  set_set _ _ _ := rfl

def withDisk {α : Type} (x : DiskM α) : TransferM α := diskPart.run x

/-- A file that has been opened is read and written from its beginning. -/
def rewind : TransferM Unit := modify fun s => { s with offset := 0 }

end Transfer

def networkDesc : Desc Stop Transfer := connDesc.over Transfer.rclPart

def clDesc : Desc Stop Transfer := connDesc.over Transfer.clPart

/-- What the local client is told; `outDesc` says whether there is one. -/
def tell (outDesc : Bool) (c : Chunk) : TransferM Unit :=
  if outDesc then clDesc.writeAllOrExit c else pure ()

variable (sys : System)

def inputFile (input : Path) : Descriptor Stop (Disk × Nat) where
  read count := do
    let s ← get
    match ← Lens.fst.run (sys.read input s.2 count) with
    | .error _ => pure (-1,[])
    | .ok bytes => do
      modify fun s => (s.1,s.2 + bytes.length)
      pure ((bytes.length : Int),bytes)
  write _ := pure (-1)
  close := pure ()
  threadExit := .threadExit
  diverges := .diverged

def outputFile (output : Path × Name) : Descriptor Stop (Disk × Nat) where
  read _ := pure (-1,[])
  write buf := do
    let s ← get
    match ← Lens.fst.run (sys.write output.1 output.2 s.2 buf) with
    | .error _ => pure (-1)
    | .ok written => do
      modify fun s => (s.1,s.2 + written)
      pure (written : Int)
  close := pure ()
  threadExit := .threadExit
  diverges := .diverged

/-- What is sent before a file's content, in one write. -/
def fileHeader (destination : Str) (size : Nat) : Str :=
  let destLen := destination.length % 65536
  0x00 :: (littleEndian 2 destLen ++ (destination.take destLen ++ littleEndian 8 size))

def dirItem (dest_path : Str) : Str :=
  let y_len := dest_path.length % 65536
  0x01 :: (littleEndian 2 y_len ++ dest_path.take y_len)

def uploadChunks (outDesc : Bool) (input : Path) : List Nat → Nat → TransferM Unit
  | [], _ => pure ()
  | count :: rest, currentProgress => do
    let v ← Transfer.filePart.run ((inputFile sys input).readAllOrExit count)
    networkDesc.writeAllOrExit (.bytes v)
    let currentProgress := currentProgress + count
    tell outDesc (.u64 currentProgress)
    uploadChunks outDesc input rest currentProgress

def OSUploadRegularFileWithProgress (source destination : Str) (thisFileSize : Nat)
    (outDesc : Bool) : TransferM Int := do
  match ← Transfer.withDisk (sys.openRead source) with
  | .error _ => pure (-1)
  | .ok input => do
    Transfer.rewind
    networkDesc.writeAllOrExit (.bytes (fileHeader destination thisFileSize))
    tell outDesc (.u64 thisFileSize)
    uploadChunks sys outDesc input (chunks REMOTE_IO_CHUNK_SIZE thisFileSize) 0
    pure 0

def uploadEntries (upload : Str → Str → TransferM Int) (src_path dest_path : Str) :
    List (Str × Name) → Int → TransferM Int
  | [], ret => pure ret
  | e :: es, ret => do
    Transfer.withDisk (efdL sys e.1)
    let ret_ ← upload (pathConcat src_path e.2) (pathConcat dest_path e.2)
    uploadEntries upload src_path dest_path es (if ret_ < 0 then ret_ else ret)

/-- The recursion goes as deep as the tree. A directory that cannot be listed is sent as an empty
one. -/
def genericUploadBasicRecursiveImplWithProgress (outDesc : Bool) :
    Nat → Str → Str → TransferM Int
  | 0, _, _ => throw .diverged
  | depth+1, src_path, dest_path => do
    match ← Transfer.withDisk (osStatSize sys src_path) with
    | none => pure (-1)
    | some ('d',_) => do
      let entries ← Transfer.withDisk (openPlain sys src_path)
      let ret ← uploadEntries sys (genericUploadBasicRecursiveImplWithProgress outDesc depth)
        src_path dest_path (entries.getD []) 0
      if entries.getD [] = [] then networkDesc.writeAllOrExit (.bytes (dirItem dest_path))
      else pure ()
      pure ret
    | some (_,size) => do
      let ret_ ← OSUploadRegularFileWithProgress sys src_path dest_path size outDesc
      tell outDesc (.u64 maxuint)
      pure ret_

def ACTION_UPLOAD : Byte := 0x11

def countSelection (depth : Nat) : List (Str × Str) → StsSz → CountMap → DiskM StsSz
  | [], counts, _ => pure counts
  | item :: v, counts, m => do
    let (itemTotals,m) ← countTotalStatsIntoMap sys depth item.1 m
    countSelection depth v (counts + itemTotals) m

def uploadSelection (depth : Nat) : List (Str × Str) → TransferM Unit
  | [] => pure ()
  | item :: v => do
    let _ ← genericUploadBasicRecursiveImplWithProgress sys true depth item.1 item.2
    uploadSelection depth v

def client_upload : TransferM Unit := do
  let s ← get
  let v ← clDesc.receivePathPairsList (s.cl.inp.length+1)
  let depth := s.disk.fs.paths.length+1
  let counts ← Transfer.withDisk (countSelection sys depth v ⟨0,0,0⟩ fun _ => ⟨0,0,0⟩)
  networkDesc.writeAllOrExit (.u8 ACTION_UPLOAD)
  networkDesc.writeAllOrExit (.u64 counts.tFiles)
  networkDesc.writeAllOrExit (.u64 counts.tSize)
  tell true (.u64 counts.tFiles)
  tell true (.u64 counts.tSize)
  uploadSelection sys depth v
  tell true (.u64 maxuint_2)
  networkDesc.writeAllOrExit (.u8 0xFF)

/-- What stands at the nearest place above that there is. -/
def statNearestAncestor : Nat → Str → DiskM (Option Node)
  | 0, _ => throw .diverged
  | n+1, currentAncestor => do
    match ← sys.stat currentAncestor with
    | .ok st => pure (some st)
    | .error _ =>
      let parent := getParentDir currentAncestor
      if parent = [] then pure none else statNearestAncestor n parent

def mkpathCopyPermissionsFromNearestAncestor (dirPath : Str) (exist_ok : Bool) : DiskM Int := do
  match ← osStat sys dirPath with
  | some letter =>
    if (letter = 'd' ∨ letter = 'L') ∧ exist_ok then pure 0
    else do
      modify fun d => { d with errno := Errno.EEXIST.code }
      pure (-1)
  | none => do
    match ← statNearestAncestor sys (dirPath.length+1) dirPath with
    | none => pure (-1)
    | some st => mkpath sys dirPath (nodeMode st) exist_ok

structure fileitem_sock_t where
  flag : Byte
  file : Str
  size : Nat
  deriving DecidableEq, Repr

def read_fileitem_sock_t : TransferM fileitem_sock_t := do
  let flag ← networkDesc.readU8
  if flag = 0xFF then pure ⟨flag,[],0⟩
  else do
    let file ← networkDesc.readStringWithLen
    if flag = 0x00 then do
      let size ← networkDesc.readU64
      pure ⟨flag,file,size⟩
    else pure ⟨flag,file,0⟩

/-- The connection is closed and the thread left. -/
def abandon {α : Type} : TransferM α := do
  Transfer.rclPart.run close
  throw .threadExit

def downloadChunks (cl : Bool) (output : Path × Name) : List Nat → Nat → TransferM Unit
  | [], _ => pure ()
  | count :: rest, currentProgress => do
    let buffer ← networkDesc.readAllOrExit count
    Transfer.filePart.run ((outputFile sys output).writeAllOrExit buffer)
    let currentProgress := currentProgress + count
    tell cl (.u64 currentProgress)
    downloadChunks cl output rest currentProgress

def downloadFile (cl : Bool) (filepath : Str) (size : Nat) : TransferM Unit := do
  let parent := getParentDir filepath
  if (← Transfer.withDisk (mkpathCopyPermissionsFromNearestAncestor sys parent true)) < 0 then
    abandon
  else do
    match ← Transfer.withDisk (sys.openExcl filepath 0o644) with
    | .error _ => abandon
    | .ok output => do
      Transfer.rewind
      tell cl (.u64 size)
      downloadChunks sys cl output (chunks REMOTE_IO_CHUNK_SIZE size) 0
      tell cl (.u64 maxuint)

/-- At most `turns` items. -/
def downloadItems (cl : Bool) : Nat → TransferM Unit
  | 0 => throw .diverged
  | turns+1 => do
    let fileitem ← read_fileitem_sock_t
    if fileitem.flag = 0xFF then pure ()
    else if fileitem.flag = 0x00 then do
      downloadFile sys cl fileitem.file fileitem.size
      downloadItems cl turns
    else if fileitem.flag = 0x01 then do
      let _ ← Transfer.withDisk
        (mkpathCopyPermissionsFromNearestAncestor sys fileitem.file true)
      downloadItems cl turns
    else abandon

/-- Each item takes at least one byte, which bounds their number. -/
def downloadRemoteItems (cl : Bool) : TransferM Unit := do
  let totalFiles ← networkDesc.readU64
  let totalSize ← networkDesc.readU64
  tell cl (.u64 totalFiles)
  tell cl (.u64 totalSize)
  let s ← get
  downloadItems sys cl (s.rcl.inp.length+1)
  tell cl (.u64 maxuint_2)

end RootHelper
