import RootHelper.PathUtils
import RootHelper.Requests

/-!
The creation of a file or directory for a remote client: what the server's handler answers, how the
client's proxy passes the answer on, and the two put together. The file system and the progress
thread are seen through what they make of one request.
-/

set_option autoImplicit false

namespace RootHelper
open Posix Control

def EPERM : Nat := 1

def HASH_BLOCK_SIZE : Nat := 1048576

/-- What the server's system does in one creation. -/
structure CreateOutcome where
  /-- The result of `mkpath` on a path with a mode and `exist_ok`, and `errno` after it. -/
  mkpath : Str → Nat → Bool → Int × Nat
  /-- The error of creating the file. -/
  create : Option Nat
  /-- Whether the new file takes the chunk of this number. -/
  takes : Nat → Bool
  /-- How often the progress thread wakes up after it. -/
  ticks : Nat → Nat
  /-- What the digest of the new file is in hexadecimal. -/
  digest : Str

def toUpperCase (src : Str) : Str := src.map fun c => if 97 ≤ c ∧ c ≤ 122 then c - 32 else c

def cli_hashLabels : List Str :=
  ["CRC32","MD5","SHA1","SHA256","SHA384","SHA512","SHA3-224","SHA3-256","SHA3-384","SHA3-512",
    "BLAKE2B-256","SHA224"].map fun label => label.toUTF8.data.toList

structure retHash where
  hash : Str
  ret : Nat
  deriving DecidableEq, Repr

def doPublish (curSize : Nat) : ConnM Unit :=
  if curSize = 0 ∨ curSize = maxuint then pure ()
  else attempt (writeAllOrExit (.u64 curSize)) fun _ => pure ()

def publish (curSize : Nat) : Nat → ConnM Unit
  | 0 => pure ()
  | ticks+1 => do
    doPublish curSize
    publish curSize ticks

section Server

variable (outcome : CreateOutcome)

/-- The chunks from the one of number `i` on are written. -/
def writeChunks : List Nat → Nat → Nat → ConnM Unit
  | [], _, _ => pure ()
  | delta :: rest, i, curSize =>
    if outcome.takes i then do
      let curSize := (curSize + delta) % 2^64
      publish curSize (outcome.ticks i)
      writeChunks rest (i+1) curSize
    else throw .threadExit

def createContent (chunkSize size : Nat) (hash : Str) : ConnM retHash :=
  match outcome.create with
  | some errno => do
    sendBaseResponse (-1) errno
    pure ⟨[],errno⟩
  | none => do
    sendBaseResponse 0 0
    writeChunks outcome (chunks chunkSize size) 0 0
    pure ⟨hash,0⟩

def createEmptyFile (size : Nat) : ConnM retHash := createContent outcome COPY_CHUNK_SIZE size []

def createRandomFile (size : Nat) (_seed output_hash _backendCipher : Str) : ConnM retHash :=
  let do_output_hash := output_hash ≠ []
  if do_output_hash ∧ toUpperCase output_hash ∉ cli_hashLabels then throw .crash
  else createContent outcome HASH_BLOCK_SIZE size (if do_output_hash then outcome.digest else [])

def createAdvanced (creationStrategy : Byte) (filesize : Nat)
    (seed output_hash backend_cipher : Str) : ConnM Str :=
  if bit creationStrategy 0 then do
    let _ ← createEmptyFile outcome filesize
    pure output_hash
  else if bit creationStrategy 1 then
    retHash.hash <$> createRandomFile outcome filesize seed output_hash backend_cipher
  else pure output_hash

/-- What `createFileOrDirectory` does once it has read its request. -/
def creation_response (filepath : Str) (mode : Nat) : Creation → ConnM Unit
  | .denied => sendBaseResponse (-1) EPERM
  | .directory =>
    let (ret,errno) := outcome.mkpath filepath mode false
    sendBaseResponse ret errno
  | .file =>
    let (ret,errno) := outcome.mkpath (getParentDir filepath) mode true
    if ret ≠ 0 then sendBaseResponse (-1) errno
    else match outcome.create with
      | some errno => sendBaseResponse (-1) errno
      | none => sendBaseResponse 0 0
  | .advanced creationStrategy filesize seed output_hash backend_cipher => do
    let output_hash ←
      createAdvanced outcome creationStrategy filesize seed output_hash backend_cipher
    writeAllOrExit (.u64 maxuint)
    if bit creationStrategy 1 && bit creationStrategy 3 then writeStringWithLen output_hash
    else pure ()

def createFileOrDirectory (rhss_checkAccess : Str → Bool) (flags : Nat) : ConnM Unit := do
  let filepath ← connDesc.readStringWithLen
  let mode ← connDesc.readU32
  let creation ← creation_request connDesc.toSource (rhss_checkAccess filepath) flags
  creation_response outcome filepath mode creation

/-- One turn of `tlsServerSessionEventLoop` that finds such a request. -/
def serveCreation (rhss_checkAccess : Str → Bool) : ConnM Unit := do
  let rq ← request_type.ofByte <$> connDesc.readU8
  if rq.request = ACTION_CREATE then createFileOrDirectory outcome rhss_checkAccess rq.flags
  else throw .threadExit

end Server

/-- At most `turns` numbers. -/
def passProgress : Nat → ProxyM Unit
  | 0 => throw .diverged
  | turns+1 => do
    let progress ← rcl.readU64
    cl.writeAllOrExit (.u64 progress)
    if progress = maxuint then pure () else passProgress turns

def client_createFileOrDirectory_response (rq : request_type) (creationStrategy : Byte) :
    ProxyM Unit := do
  let resp ← rcl.readU8
  if resp ≠ 0 then do
    let receivedErrno ← rcl.readU32
    cl.writeAllOrExit (.u8 resp)
    cl.writeAllOrExit (.u32 receivedErrno)
  else do
    cl.writeAllOrExit (.u8 resp)
    if b0 rq.flags && b1 rq.flags then do
      let p ← get
      passProgress (p.rcl.inp.length + 1)
      if bit creationStrategy 1 && bit creationStrategy 3 then do
        let outputHash ← cl.readStringWithLen
        brcl.writeStringWithLen outputHash
      else pure ()
    else pure ()

def Sent.creationStrategy : Sent → Byte
  | .create _ _ (some o) => o.creationStrategy
  | _ => 0

def exchange (outcome : CreateOutcome) (rhss_checkAccess : Str → Bool) (rq : request_type)
    (p : Proxy) : Option (Proxy × Conn) :=
  match client_createFileOrDirectory_request rq p with
  | .error _ _ => none
  | .ok f p =>
    match serveCreation outcome rhss_checkAccess ⟨p.rcl.bytes,[],none,false⟩ with
    | .error _ _ => none
    | .ok _ k =>
      let p := { p with rcl := { p.rcl with inp := k.bytes } }
      match client_createFileOrDirectory_response rq f.creationStrategy p with
      | .error _ _ => none
      | .ok _ p => some (p,k)

def localClient (inp : Str) : Proxy := ⟨⟨inp,[],none,false⟩,⟨[],[],none,false⟩,[]⟩

/-- All three streams end with the exchange, `next` is what follows it, and the local client has
got what the server has sent. -/
structure Aligned (next : Str) (p : Proxy) (k : Conn) : Prop where
  server : k.inp = []
  remote : p.rcl.inp = []
  localStream : p.cl.inp = next
  received : p.cl.bytes = k.bytes

instance {next : Str} {p : Proxy} {k : Conn} : Decidable (Aligned next p k) :=
  decidable_of_iff (k.inp = [] ∧ p.rcl.inp = [] ∧ p.cl.inp = next ∧ p.cl.bytes = k.bytes)
    ⟨fun h => ⟨h.1,h.2.1,h.2.2.1,h.2.2.2⟩,fun h => ⟨h.1,h.2,h.3,h.4⟩⟩

end RootHelper
