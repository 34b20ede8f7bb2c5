import RootHelper.Protocol

/-!
The requests of a remote session as the client proxies send them and as the server's handlers read
them, each up to the point where it has been read.
-/

set_option autoImplicit false

namespace RootHelper
open Posix Control

variable {ε σ τ : Type}

def b0 (flags : Nat) : Bool := flags.testBit 0
def b1 (flags : Nat) : Bool := flags.testBit 1
def b2 (flags : Nat) : Bool := flags.testBit 2

def bit (creationStrategy : Byte) (n : Nat) : Bool := creationStrategy.toNat.testBit n

/-- Numbers can be written for requests and flags. -/
instance neZero_requests : NeZero 32 := ⟨by decide⟩
instance neZero_flags : NeZero 8 := ⟨by decide⟩

/-- Five bits and three. -/
structure request_type where
  request : Fin 32
  flags : Fin 8
  deriving DecidableEq, Repr

def request_type.byte (rq : request_type) : Byte := .ofNat (rq.request + 32*rq.flags)

def request_type.ofByte (b : Byte) : request_type := ⟨.ofNat 32 b.toNat,.ofNat 8 (b.toNat/32)⟩

theorem request_type.ofByte_byte (rq : request_type) : ofByte rq.byte = rq := by
  obtain ⟨⟨request,hr⟩,⟨flags,hf⟩⟩ := rq
  have hsum : request + 32*flags < 256 := by omega
  simp only [ofByte,byte,UInt8.toNat_ofNat',mk.injEq,Fin.ext_iff,Fin.val_ofNat]
  omega

def ACTION_LS : Fin 32 := 0x01
def ACTION_STATS : Fin 32 := 0x05
def ACTION_CREATE : Fin 32 := 0x09
def ACTION_HASH : Fin 32 := 0x0A
def ACTION_LINK : Fin 32 := 0x17

def rh_hash_maxAlgoIndex : Nat := 12

/-- Between the local client and the server; `buffer` is what `BufferedWriteDescriptor` keeps. -/
structure Proxy where
  cl : Conn
  rcl : Conn
  buffer : Str
  deriving DecidableEq, Repr

abbrev ProxyM := EStateM Stop Proxy

namespace Proxy

def clPart : Lens Proxy Conn where
  get p := p.cl
  set p k := { p with cl := k }
  get_set _ _ := rfl
  set_get _ := rfl
  set_set _ _ _ := rfl

def rclPart : Lens Proxy Conn where
  get p := p.rcl
  set p k := { p with rcl := k }
  get_set _ _ := rfl
  set_get _ := rfl
  set_set _ _ _ := rfl

end Proxy

def cl : Desc Stop Proxy := connDesc.over Proxy.clPart

def rcl : Desc Stop Proxy := connDesc.over Proxy.rclPart

/-- Writing through a `BufferedWriteDescriptor`. -/
def brcl : Sink Stop Proxy where
  writeAllOrExit c := modify fun p => { p with buffer := p.buffer ++ c.encode }

/-- A new `BufferedWriteDescriptor`. -/
def newBuffer : ProxyM Unit := modify fun p => { p with buffer := [] }

def flush : ProxyM Unit := do
  let p ← get
  if p.buffer = [] then pure ()
  else do
    rcl.writeAllOrExit (.bytes p.buffer)
    newBuffer

/-- The options of a created file. -/
structure CreateOptions where
  creationStrategy : Byte
  filesize : Nat
  prngSeed : Str
  outputHashType : Str
  backendCipher : Str
  deriving DecidableEq, Repr

/-- What a proxy has sent. -/
inductive Sent where
  | ls (dirpath : Str)
  | create (dirpath : Str) (mode : Nat) (options : Option CreateOptions)
  | link (srcDestPaths : Str × Str)
  | stats (dirpath : Str)
  | hash (algorithm dirHashOpts : Byte) (filepath : Str)
  deriving DecidableEq, Repr

def client_ls_request (rq : request_type) : ProxyM Sent := do
  let dirpath ← cl.readStringWithLen
  let dirpath_sz := dirpath.length % 65536
  rcl.writeAllOrExit (.bytes (rq.byte :: (littleEndian 2 dirpath_sz ++ dirpath.take dirpath_sz)))
  pure (.ls dirpath)

def passString (given : Bool) : ProxyM Str :=
  if given then do
    let s ← cl.readStringWithLen
    brcl.writeStringWithLen s
    pure s
  else pure []

def passOptions : ProxyM CreateOptions := do
  let creationStrategy ← cl.readU8
  let filesize ← cl.readU64
  brcl.writeAllOrExit (.u8 creationStrategy)
  brcl.writeAllOrExit (.u64 filesize)
  let random := bit creationStrategy 1
  let prngSeed ← passString (random && bit creationStrategy 2)
  let outputHashType ← passString (random && bit creationStrategy 3)
  let backendCipher ← passString (random && bit creationStrategy 4)
  pure ⟨creationStrategy,filesize,prngSeed,outputHashType,backendCipher⟩

def client_createFileOrDirectory_request (rq : request_type) : ProxyM Sent := do
  let dirpath ← cl.readStringWithLen
  let mode ← cl.readU32
  newBuffer
  brcl.writeAllOrExit (.u8 rq.byte)
  brcl.writeStringWithLen dirpath
  brcl.writeAllOrExit (.u32 mode)
  let options ← (if b0 rq.flags && b1 rq.flags then some <$> passOptions else pure none)
  flush
  pure (.create dirpath mode options)

def client_createHardOrSoftLink_request (rq : request_type) : ProxyM Sent := do
  let srcDestPaths ← cl.readPairOfStringsWithPairOfLens
  newBuffer
  brcl.writeAllOrExit (.u8 rq.byte)
  brcl.writePairOfStringsWithPairOfLens srcDestPaths
  flush
  pure (.link srcDestPaths)

def client_stats_request (rq : request_type) : ProxyM Sent := do
  let dirpath ← cl.readStringWithLen
  newBuffer
  brcl.writeAllOrExit (.u8 rq.byte)
  brcl.writeStringWithLen dirpath
  flush
  pure (.stats dirpath)

/-- Nothing is sent for an unknown algorithm. -/
def client_hash_request (errno : Nat) (rq : request_type) : ProxyM (Option Sent) := do
  let algorithm ← cl.readU8
  let dirHashOpts ← cl.readU8
  if rh_hash_maxAlgoIndex ≤ algorithm.toNat then do
    cl.sendBaseResponse (-1) errno
    pure none
  else do
    newBuffer
    brcl.writeAllOrExit (.u8 rq.byte)
    brcl.writeAllOrExit (.u8 algorithm)
    brcl.writeAllOrExit (.u8 dirHashOpts)
    let filepath ← cl.readStringWithLen
    brcl.writeStringWithLen filepath
    flush
    pure (some (.hash algorithm dirHashOpts filepath))

/-- One turn of `tlsClientSessionEventLoop` up to the request it sends; nothing is said of the other
requests. -/
def client_request (errno : Nat) (rq : request_type) : ProxyM (Option Sent) :=
  if rq.request = ACTION_LS then some <$> client_ls_request rq
  else if rq.request = ACTION_CREATE then some <$> client_createFileOrDirectory_request rq
  else if rq.request = ACTION_LINK then some <$> client_createHardOrSoftLink_request rq
  else if rq.request = ACTION_STATS then some <$> client_stats_request rq
  else if rq.request = ACTION_HASH then client_hash_request errno rq
  else pure none

/-- What `createFileOrDirectory` is to do. -/
inductive Creation where
  | denied
  | directory
  | file
  | advanced (creationStrategy : Byte) (filesize : Nat) (seed output_hash backend_cipher : Str)
  deriving DecidableEq, Repr

inductive Received where
  | listDir (dirpath : Str)
  | retrieveHomePath (inputPath : Str)
  | createFileOrDirectory (filepath : Str) (mode : Nat) (creation : Creation)
  | createHardOrSoftLink (srcDestPaths : Str × Str)
  | stats_file (filepath : Str)
  | stats_dir (dirpath : Str)
  | stats_multiple (paths : List Str)
  | hashFile (algorithm dirHashOpts : Byte) (filepath : Option Str)
  /-- No bit of `stats` is set: it does nothing. -/
  | nothing
  /-- The thread exits. -/
  | exits
  /-- A request of another kind. -/
  | other
  deriving DecidableEq, Repr

section Handlers

variable (inOutDesc : Source ε σ)

def readStringIf (given : Bool) : EStateM ε σ Str :=
  if given then inOutDesc.readStringWithLen else pure []

/-- The options are only read when access is granted, and the strings only for random content. -/
def creation_request (denied : Bool) (flags : Nat) : EStateM ε σ Creation :=
  if denied then pure .denied
  else if b0 flags then
    if b1 flags then do
      let creationStrategy ← inOutDesc.readU8
      let filesize ← inOutDesc.readU64
      let random := !bit creationStrategy 0 && bit creationStrategy 1
      let seed ← readStringIf inOutDesc (random && bit creationStrategy 2)
      let output_hash ← readStringIf inOutDesc (random && bit creationStrategy 3)
      let backend_cipher ← readStringIf inOutDesc (random && bit creationStrategy 4)
      pure (.advanced creationStrategy filesize seed output_hash backend_cipher)
    else pure .file
  else pure .directory

def createFileOrDirectory_request (rhss_checkAccess : Str → Bool) (flags : Nat) :
    EStateM ε σ Received := do
  let filepath ← inOutDesc.readStringWithLen
  let mode ← inOutDesc.readU32
  let creation ← creation_request inOutDesc (rhss_checkAccess filepath) flags
  pure (.createFileOrDirectory filepath mode creation)

def hashFile_request : EStateM ε σ Received := do
  let algorithm ← inOutDesc.readU8
  let dirHashOpts ← inOutDesc.readU8
  if rh_hash_maxAlgoIndex ≤ algorithm.toNat then pure (.hashFile algorithm dirHashOpts none)
  else do
    let filepath ← inOutDesc.readStringWithLen
    pure (.hashFile algorithm dirHashOpts (some filepath))

/-- At most `turns` paths. -/
def stats_multiple_request : Nat → EStateM ε σ (List Str)
  | 0 => throw inOutDesc.diverges
  | turns+1 => do
    let dirpath ← inOutDesc.readStringWithLen
    if dirpath = [] then pure []
    else do
      let paths ← stats_multiple_request turns
      pure (dirpath :: paths)

def stats_request (turns flags : Nat) : EStateM ε σ Received :=
  if b0 flags then .stats_file <$> inOutDesc.readStringWithLen
  else if b1 flags then .stats_dir <$> inOutDesc.readStringWithLen
  else if b2 flags then .stats_multiple <$> stats_multiple_request inOutDesc turns
  else pure .nothing

/-- One turn of `tlsServerSessionEventLoop` up to what the handler has read. -/
def server_request (rhss_checkAccess : Str → Bool) (turns : Nat) : EStateM ε σ Received := do
  let rq ← request_type.ofByte <$> inOutDesc.readU8
  if rq.request = ACTION_LS then
    if rq.flags = 0 then .listDir <$> inOutDesc.readStringWithLen
    else if rq.flags = 2 then .retrieveHomePath <$> inOutDesc.readStringWithLen
    else pure .exits
  else if rq.request = ACTION_CREATE then
    createFileOrDirectory_request inOutDesc rhss_checkAccess rq.flags
  else if rq.request = ACTION_LINK then
    .createHardOrSoftLink <$> inOutDesc.readPairOfStringsWithPairOfLens
  else if rq.request = ACTION_STATS then stats_request inOutDesc turns rq.flags
  else if rq.request = ACTION_HASH then hashFile_request inOutDesc
  else pure .other

end Handlers

end RootHelper
