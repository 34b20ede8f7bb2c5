import RootHelper.Creation
import RootHelper.HashExchange
import RootHelper.ItemDownload
import RootHelper.Listings

/-!
The loop of a remote session: one request after the other is read off the stream of the client and
served, until a thread exit or a crash ends the session.
-/

set_option autoImplicit false

namespace RootHelper
open Posix Control

/-- What the handlers of one request find: the file system, as they look at it and as they change it,
and what is set for the server. -/
structure RemoteServer where
  sys : System
  view : View
  homePath : Str
  rhss_checkAccess : Str → Bool
  hashes : HashFunctions
  creation : CreateOutcome
  errno : Nat

def writeOnce (buf : Str) : ConnM Int := do
  let k ← get
  if k.closed ∨ k.room = some 0 then pure (-1)
  else do
    set { k with out := k.out ++ [Chunk.bytes buf], room := k.room.map (· - 1) }
    pure buf.length

def networkEnd : ServerEnd Stop Transfer where
  desc := networkDesc
  write buf := Transfer.rclPart.run (writeOnce buf)
  close := Transfer.rclPart.run close

def sendSelection (sys : System) (depth : Nat) : List (Str × Str) → TransferM Unit
  | [] => pure ()
  | item :: v => do
    let _ ← genericUploadBasicRecursiveImplWithProgress sys false depth item.1 item.2
    sendSelection sys depth v

/-- As many pairs as there are bytes to come, at most. -/
def server_download (sys : System) : TransferM Unit := do
  let s ← get
  let v ← networkDesc.receivePathPairsList (s.rcl.inp.length+1)
  let depth := s.disk.fs.paths.length+1
  let counts ← Transfer.withDisk (countSelection sys depth v ⟨0,0,0⟩ fun _ => ⟨0,0,0⟩)
  networkDesc.writeAllOrExit (.u64 counts.tFiles)
  networkDesc.writeAllOrExit (.u64 counts.tSize)
  sendSelection sys depth v
  networkDesc.writeAllOrExit (.u8 0xFF)

def createHardOrSoftLink (sys : System) (flags : Nat) : TransferM Unit := do
  let (origin,link) ← networkDesc.readPairOfStringsWithPairOfLens
  let ret ← Transfer.withDisk (if b1 flags then sys.link origin link else sys.symlink origin link)
  match ret with
  | .ok _ => networkDesc.sendBaseResponse 0 0
  | .error e => networkDesc.sendBaseResponse (-1) e.code

/-- Without a bit that is looked at, nothing is done. -/
def stats (server : RemoteServer) (flags : Nat) : TransferM Unit := do
  let s ← get
  match ← stats_request networkDesc.toSource (s.rcl.inp.length+1) flags with
  | .stats_file filepath =>
    stats_file server.view networkDesc.toSink server.rhss_checkAccess server.errno filepath
  | .stats_dir dirpath =>
    stats_dir server.view networkDesc.toSink server.rhss_checkAccess server.errno dirpath
  | .stats_multiple paths => stats_multiple server.view networkDesc.toSink server.errno paths
  | _ => pure ()

def ACTION_DOWNLOAD : Fin 32 := 0x10
def ACTION_OTHER : Fin 32 := 0x1E

def controlCursor : TransferM Unit := do
  networkDesc.sendBaseResponse (-1) 1234
  throw .threadExit

def other : TransferM Unit := do
  let ao ← networkDesc.readU16
  if ao = 0x21 then controlCursor else pure ()

def ls (server : RemoteServer) (flags : Fin 8) : TransferM Unit := do
  if flags = 0 then do
    let dirpath ← networkDesc.readStringWithLen
    listDir networkEnd server.view server.homePath server.rhss_checkAccess server.errno dirpath
  else if flags = 2 then do
    let _ ← networkDesc.readStringWithLen
    retrieveHomePath networkEnd server.homePath
  else throw .threadExit

def serve (server : RemoteServer) (rq : request_type) : TransferM Unit :=
  if rq.request = ACTION_LS then ls server rq.flags
  else if rq.request = ACTION_DOWNLOAD then server_download server.sys
  else if rq.request.val = ACTION_UPLOAD.toNat then downloadRemoteItems server.sys false
  else if rq.request = ACTION_CREATE then
    Transfer.rclPart.run (createFileOrDirectory server.creation server.rhss_checkAccess rq.flags)
  else if rq.request = ACTION_LINK then createHardOrSoftLink server.sys rq.flags
  else if rq.request = ACTION_STATS then stats server rq.flags
  else if rq.request = ACTION_HASH then
    hashFile networkDesc server.hashes server.view server.errno .crash
  else if rq.request = ACTION_OTHER then other
  else throw .threadExit

/-- One turn of `tlsServerSessionEventLoop`. -/
def tlsServerSessionTurn (server : RemoteServer) : TransferM Unit := do
  let rq ← request_type.ofByte <$> networkDesc.readU8
  serve server rq

/-- What a client sends for one request. -/
inductive RemoteRequest where
  | ls (flags : Fin 8) (dirpath : Str)
  | download (flags : Fin 8) (pathPairs : List (Str × Str))
  | upload (flags : Fin 8) (totalFiles totalSize : Nat) (items : List Item)
  | create (flags : Fin 8) (filepath : Str) (mode : Nat) (options : Option CreateOptions)
  | link (flags : Fin 8) (srcDestPaths : Str × Str)
  | stats (flags : Fin 8) (path : Str)
  | statsMultiple (paths : List Str)
  | hash (flags : Fin 8) (algorithm dirHashOpts : Byte) (filepath : Str)
  | other (flags : Fin 8) (ao : Nat)
  | unknown (rq : request_type) (body : Str)

namespace RemoteRequest

def rq : RemoteRequest → request_type
  | ls flags _ => ⟨ACTION_LS,flags⟩
  | download flags _ => ⟨ACTION_DOWNLOAD,flags⟩
  | upload flags _ _ _ => ⟨.ofNat 32 ACTION_UPLOAD.toNat,flags⟩
  | create flags _ _ _ => ⟨ACTION_CREATE,flags⟩
  | link flags _ => ⟨ACTION_LINK,flags⟩
  | stats flags _ => ⟨ACTION_STATS,flags⟩
  | statsMultiple _ => ⟨ACTION_STATS,4⟩
  | hash flags _ _ _ => ⟨ACTION_HASH,flags⟩
  | other flags _ => ⟨ACTION_OTHER,flags⟩
  | unknown rq _ => rq

def body : RemoteRequest → Str
  | ls _ path | stats _ path => stringBytes path
  | download _ pathPairs => pathPairsBytes pathPairs
  | upload _ totalFiles totalSize items =>
    littleEndian 8 totalFiles ++ (littleEndian 8 totalSize ++ (items.flatMap Item.bytes ++ [0xFF]))
  | create _ filepath mode options => (Sent.create filepath mode options).body
  | link _ srcDestPaths => (Sent.link srcDestPaths).body
  | statsMultiple paths => paths.flatMap stringBytes ++ stringBytes []
  | hash _ algorithm dirHashOpts filepath => (Sent.hash algorithm dirHashOpts filepath).body
  | other _ ao => littleEndian 2 ao
  | unknown _ body => body

def bytes (r : RemoteRequest) : Str := [r.rq.byte] ++ r.body

def served : List (Fin 32) := [ACTION_LS,ACTION_DOWNLOAD,.ofNat 32 ACTION_UPLOAD.toNat,ACTION_CREATE,
  ACTION_LINK,ACTION_STATS,ACTION_HASH,ACTION_OTHER]

/-- The sizes of the formats. A list of paths has no empty ones, and is a request of its own. -/
def Fits : RemoteRequest → Prop
  | ls _ dirpath => dirpath.length < 65536
  | download _ pathPairs => ∀ v ∈ pathPairs, v.1 ≠ [] ∧ v.1.length < 65536 ∧ v.2.length < 65536
  | upload _ totalFiles totalSize items => totalFiles < 2^64 ∧ totalSize < 2^64 ∧
      ∀ item ∈ items, item.path.length < 65536 ∧ (item.content.getD []).length < 2^64
  | create flags filepath mode options => (Sent.create filepath mode options).Fits ⟨ACTION_CREATE,flags⟩
  | link flags srcDestPaths => (Sent.link srcDestPaths).Fits ⟨ACTION_LINK,flags⟩
  | stats flags path => path.length < 65536 ∧ (b2 flags = true → b0 flags = true ∨ b1 flags = true)
  | statsMultiple paths => ∀ path ∈ paths, path ≠ [] ∧ path.length < 65536
  | hash _ _ _ filepath => filepath.length < 65536
  | other _ ao => ao < 65536
  | unknown rq _ => rq.request ∉ served

def Taken (server : RemoteServer) : RemoteRequest → Prop
  | create _ filepath _ options => ∀ o ∈ options,
      server.rhss_checkAccess filepath = false ∧ (o.ambiguous = true → o.strings = [])
  | stats flags _ => b0 flags = true ∨ b1 flags = true
  | hash _ algorithm _ _ => algorithm.toNat < rh_hash_maxAlgoIndex
  | _ => True

end RemoteRequest

end RootHelper
