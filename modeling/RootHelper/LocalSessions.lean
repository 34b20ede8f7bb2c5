import RootHelper.ArchiveListing
import RootHelper.HashExchange

/-!
The session of a local client: the requests for a search, a digest, a compression and an extraction,
as far as they are read. What is done with a request is a parameter: it only writes.
-/

set_option autoImplicit false

namespace RootHelper
open Posix Control

variable {ε σ : Type}

def ACTION_COMPRESS : Fin 32 := 0x06
def ACTION_EXTRACT : Fin 32 := 0x07
def ACTION_FIND : Fin 32 := 0x0B

def EAGAIN : Nat := 11

/-- The connection of a local client: its descriptor, single reads from it, and closing it. -/
structure LocalEnd (ε σ : Type) extends Desc ε σ where
  read : Nat → EStateM ε σ (Int × Str)
  close : EStateM ε σ Unit

structure FindRequest where
  searchFlags : Nat
  basePaths : List Str
  namepattern : Str
  contentpattern : Str
  deriving DecidableEq, Repr

structure compress_rq_options_t where
  compressionLevel : Byte
  encryptHeader : Byte
  solid : Byte
  deriving DecidableEq, Repr

structure CompressRequest where
  srcFolder : Str
  destArchive : Str
  compress_options : compress_rq_options_t
  password : Str
  currentEntries : List Str
  deriving DecidableEq, Repr

structure PosixCompatDirItem where
  filename : Str
  st_mode : Nat
  st_size : Nat
  st_archivetime : Nat
  st_creationtime : Nat
  st_modificationtime : Nat
  deriving DecidableEq, Repr

structure CompressFdsRequest where
  fstatsList : List PosixCompatDirItem
  destArchive : Str
  compress_options : compress_rq_options_t
  password : Str
  deriving DecidableEq, Repr

structure ExtractRequest where
  f : List Str
  destFolder : Str
  password : Str
  currentEntries : List Nat
  subDirLengthForPathTruncateInWideChars : Nat
  deriving DecidableEq, Repr

/-- The helper while it serves a request, and what it does once it has read one. -/
structure Helper where
  /-- Whether a search is active. -/
  currentSearchInOutDesc : Bool
  lib7zLoaded : Bool
  createObjectFunc : Bool
  /-- Whether `fork` gives a child. -/
  forks : Bool
  /-- How many bytes the child has read when `wait` returns for another one. -/
  reaped : Option Nat
  errno : Nat
  hashes : HashFunctions
  view : View
  /-- What is written, and whether the thread exits before the end of the search. -/
  search : FindRequest → List Chunk × Bool
  compress : CompressRequest → List Chunk
  /-- The indices for which descriptors are asked. -/
  indices : CompressFdsRequest → List Nat
  compressFds : CompressFdsRequest → List Chunk
  extract : ExtractRequest → List Chunk

section Reading

variable (inOutDesc : LocalEnd ε σ)

/-- Strings up to an empty one, in at most `turns` turns. -/
def readStrings : Nat → EStateM ε σ (List Str)
  | 0 => throw inOutDesc.diverges
  | turns+1 => do
    let basepath ← inOutDesc.readStringWithLen
    if basepath = [] then pure []
    else do
      let basePaths ← readStrings turns
      pure (basepath :: basePaths)

def readFindRequest (turns : Nat) : EStateM ε σ FindRequest := do
  let searchFlags ← inOutDesc.readU16
  let basePaths ← readStrings inOutDesc turns
  let namepattern ← inOutDesc.readStringWithLen
  let contentpattern ← inOutDesc.readStringWithLen
  pure ⟨searchFlags,basePaths,namepattern,contentpattern⟩

/-- One `read` for each, whose result is not looked at. -/
def readcompress_rq_options : EStateM ε σ compress_rq_options_t := do
  let (_,compressionLevel) ← inOutDesc.read 1
  let (_,encryptHeader) ← inOutDesc.read 1
  let (_,solid) ← inOutDesc.read 1
  pure ⟨compressionLevel.headD 0,encryptHeader.headD 0,solid.headD 0⟩

def readEntries {α : Type} (entry : EStateM ε σ α) : Nat → EStateM ε σ (List α)
  | 0 => pure []
  | n+1 => do
    let current ← entry
    let currentEntries ← readEntries entry n
    pure (current :: currentEntries)

def readCompressRequest : EStateM ε σ CompressRequest := do
  let srcDestPaths ← inOutDesc.readPairOfStringsWithPairOfLens
  let compress_options ← readcompress_rq_options inOutDesc
  let password ← inOutDesc.readStringWithByteLen
  let nOfItemsToCompress ← inOutDesc.readU32
  let currentEntries ← readEntries inOutDesc.readStringWithLen nOfItemsToCompress
  pure ⟨srcDestPaths.1,srcDestPaths.2,compress_options,password,currentEntries⟩

/-- At most `turns` items. -/
def receiveStats : Nat → EStateM ε σ (List PosixCompatDirItem)
  | 0 => throw inOutDesc.diverges
  | turns+1 => do
    let filename ← inOutDesc.readStringWithLen
    if filename = [] then pure []
    else do
      let st_mode ← inOutDesc.readU32
      let st_size ← inOutDesc.readU64
      let st_archivetime ← inOutDesc.readU64
      let st_creationtime ← inOutDesc.readU64
      let st_modificationtime ← inOutDesc.readU64
      let fstatsList ← receiveStats turns
      pure (⟨filename,st_mode,st_size,st_archivetime,st_creationtime,st_modificationtime⟩ :: fstatsList)

def readCompressFdsRequest (turns : Nat) : EStateM ε σ CompressFdsRequest := do
  let fstatsList ← receiveStats inOutDesc turns
  let destArchive ← inOutDesc.readStringWithLen
  let compress_options ← readcompress_rq_options inOutDesc
  let password ← inOutDesc.readStringWithByteLen
  pure ⟨fstatsList,destArchive,compress_options,password⟩

/-- Nothing when entries are named of several archives, which are left unread. -/
def readExtractRequest (turns flags : Nat) : EStateM ε σ (Option ExtractRequest) := do
  let multiArchive := ! b2 flags
  let (f,destFolder) ←
    if multiArchive then do
      let f ← readStrings inOutDesc turns
      let destFolder ← inOutDesc.readStringWithLen
      pure (f,destFolder)
    else do
      let f ← inOutDesc.readPairOfStringsWithPairOfLens
      pure ([f.1],f.2)
  let password ← inOutDesc.readStringWithByteLen
  let nOfEntriesToExtract ← inOutDesc.readU32
  if nOfEntriesToExtract = 0 then pure (some ⟨f,destFolder,password,[],0⟩)
  else if multiArchive then pure none
  else do
    let currentEntries ← readEntries inOutDesc.readU32 nOfEntriesToExtract
    let subDirLength ← inOutDesc.readU32
    pure (some ⟨f,destFolder,password,currentEntries,subDirLength⟩)

end Reading

section Handlers

variable (inOutDesc : LocalEnd ε σ) (helper : Helper) (threadExit processExit : ε) (turns : Nat)

def writeAllChunks : List Chunk → EStateM ε σ Unit
  | [] => pure ()
  | c :: cs => do
    inOutDesc.writeAllOrExit c
    writeAllChunks cs

/-- With `b0` the active search is to end. At its end a search closes the descriptor it has noted, which
is that of its client. -/
def findNamesAndContent (flags : Nat) : EStateM ε σ Unit :=
  if b0 flags then inOutDesc.sendBaseResponse 0 0
  else if helper.currentSearchInOutDesc then inOutDesc.sendBaseResponse (-1) EAGAIN
  else do
    let rq ← readFindRequest inOutDesc turns
    inOutDesc.sendBaseResponse 0 0
    writeAllChunks inOutDesc (helper.search rq).1
    if (helper.search rq).2 then throw threadExit else inOutDesc.close

def receiveFds : List Nat → EStateM ε σ Unit
  | [] => pure ()
  | index :: indices => do
    inOutDesc.writeAllOrExit (.u32 index)
    let _ ← inOutDesc.read 1
    receiveFds indices

def compressToArchiveFromFds : EStateM ε σ Unit :=
  if ¬ helper.createObjectFunc then throw processExit
  else do
    let rq ← readCompressFdsRequest inOutDesc turns
    receiveFds inOutDesc (helper.indices rq)
    writeAllChunks inOutDesc (helper.compressFds rq)

def compressToArchive (flags : Nat) : EStateM ε σ Unit :=
  if ¬ helper.lib7zLoaded then inOutDesc.sendBaseResponse (-1) 771
  else if flags ≠ 0 then compressToArchiveFromFds inOutDesc helper processExit turns
  else if ¬ helper.createObjectFunc then throw processExit
  else do
    let rq ← readCompressRequest inOutDesc
    writeAllChunks inOutDesc (helper.compress rq)

def extractFromArchive (flags : Nat) : EStateM ε σ Unit :=
  if ¬ helper.lib7zLoaded then inOutDesc.sendBaseResponse (-1) 771
  else if ¬ helper.createObjectFunc then inOutDesc.sendBaseResponse (-1) 12346
  else do
    match ← readExtractRequest inOutDesc turns flags with
    | none => inOutDesc.sendBaseResponse (-1) 17217
    | some rq => writeAllChunks inOutDesc (helper.extract rq)

/-- The child ends however its handler does; the parent goes on when `wait` returns, which may be for
another child. -/
def forkP7ZipSession (rq : request_type) : EStateM ε σ Unit :=
  if ¬ helper.forks then inOutDesc.sendBaseResponse (-1) helper.errno
  else
    match helper.reaped with
    | some count => do
      let _ ← inOutDesc.readAllOrExit count
      pure ()
    | none =>
      attempt (if rq.request = ACTION_COMPRESS then
          compressToArchive inOutDesc helper processExit turns rq.flags
        else extractFromArchive inOutDesc helper turns rq.flags) fun _ => pure ()

/-- One turn of the loop of `clientSession`, for these requests. -/
def clientSessionTurn : EStateM ε σ Unit := do
  let rq ← request_type.ofByte <$> inOutDesc.readU8
  if rq.request = ACTION_COMPRESS ∨ rq.request = ACTION_EXTRACT then
    forkP7ZipSession inOutDesc helper processExit turns rq
  else if rq.request = ACTION_HASH then
    hashFile inOutDesc.toDesc helper.hashes helper.view helper.errno processExit
  else if rq.request = ACTION_FIND then
    findNamesAndContent inOutDesc helper threadExit turns rq.flags
  else throw inOutDesc.diverges

/-- The turns of the loop, in each of which the helper may be in another state. -/
def clientSession : List Helper → EStateM ε σ Unit
  | [] => pure ()
  | helper :: helpers => do
    clientSessionTurn inOutDesc helper threadExit processExit turns
    clientSession helpers

end Handlers

def byteString (s : Str) : Str := [.ofNat s.length] ++ s

def stringsBytes (l : List Str) : Str := l.flatMap stringBytes ++ stringBytes []

def FindRequest.bytes (rq : FindRequest) : Str :=
  littleEndian 2 rq.searchFlags ++ (stringsBytes rq.basePaths ++
    (stringBytes rq.namepattern ++ stringBytes rq.contentpattern))

def compress_rq_options_t.bytes (o : compress_rq_options_t) : Str :=
  [o.compressionLevel] ++ ([o.encryptHeader] ++ [o.solid])

def CompressRequest.bytes (rq : CompressRequest) : Str :=
  pairBytes (rq.srcFolder,rq.destArchive) ++ (rq.compress_options.bytes ++ (byteString rq.password ++
    (littleEndian 4 rq.currentEntries.length ++ rq.currentEntries.flatMap stringBytes)))

def PosixCompatDirItem.bytes (item : PosixCompatDirItem) : Str :=
  stringBytes item.filename ++ (littleEndian 4 item.st_mode ++ (littleEndian 8 item.st_size ++
    (littleEndian 8 item.st_archivetime ++ (littleEndian 8 item.st_creationtime ++
      littleEndian 8 item.st_modificationtime))))

def CompressFdsRequest.bytes (rq : CompressFdsRequest) : Str :=
  rq.fstatsList.flatMap PosixCompatDirItem.bytes ++ stringBytes [] ++ (stringBytes rq.destArchive ++
    (rq.compress_options.bytes ++ byteString rq.password))

/-- The length to be cut off follows where there are entries. -/
def ExtractRequest.bytes (flags : Nat) (rq : ExtractRequest) : Str :=
  (if b2 flags then pairBytes (rq.f.headD [],rq.destFolder)
    else stringsBytes rq.f ++ stringBytes rq.destFolder) ++ (byteString rq.password ++
      (littleEndian 4 rq.currentEntries.length ++
        if rq.currentEntries = [] then []
        else rq.currentEntries.flatMap (littleEndian 4) ++
          littleEndian 4 rq.subDirLengthForPathTruncateInWideChars))

/-- A request, and in one case the bytes that come with descriptors. -/
inductive LocalRequest where
  | cancel (flags : Fin 8)
  | find (flags : Fin 8) (rq : FindRequest)
  | hash (flags : Fin 8) (algorithm dirHashOpts : Byte) (filepath : Str)
  | compress (rq : CompressRequest)
  | compressFds (flags : Fin 8) (rq : CompressFdsRequest) (fds : Str)
  | extract (flags : Fin 8) (rq : ExtractRequest)
  deriving DecidableEq, Repr

namespace LocalRequest

def rq : LocalRequest → request_type
  | cancel flags => ⟨ACTION_FIND,flags⟩
  | find flags _ => ⟨ACTION_FIND,flags⟩
  | hash flags _ _ _ => ⟨ACTION_HASH,flags⟩
  | compress _ => ⟨ACTION_COMPRESS,0⟩
  | compressFds flags _ _ => ⟨ACTION_COMPRESS,flags⟩
  | extract flags _ => ⟨ACTION_EXTRACT,flags⟩

def body : LocalRequest → Str
  | cancel _ => []
  | find _ rq => rq.bytes
  | hash _ algorithm dirHashOpts filepath => [algorithm] ++ ([dirHashOpts] ++ stringBytes filepath)
  | compress rq => rq.bytes
  | compressFds _ rq fds => rq.bytes ++ fds
  | extract flags rq => rq.bytes flags

def bytes (r : LocalRequest) : Str := r.rq.byte :: r.body

end LocalRequest

def FindRequest.Fits (turns : Nat) (rq : FindRequest) : Prop :=
  rq.searchFlags < 65536 ∧ rq.basePaths.length < turns ∧
    (∀ s ∈ rq.basePaths, s ≠ [] ∧ s.length < 65536) ∧
    rq.namepattern.length < 65536 ∧ rq.contentpattern.length < 65536

def CompressRequest.Fits (rq : CompressRequest) : Prop :=
  rq.srcFolder ≠ [] ∧ rq.srcFolder.length < 65536 ∧ rq.destArchive.length < 65536 ∧
    rq.password.length < 256 ∧ rq.currentEntries.length < 2^32 ∧
    ∀ s ∈ rq.currentEntries, s.length < 65536

def PosixCompatDirItem.Fits (item : PosixCompatDirItem) : Prop :=
  item.filename ≠ [] ∧ item.filename.length < 65536 ∧ item.st_mode < 2^32 ∧ item.st_size < 2^64 ∧
    item.st_archivetime < 2^64 ∧ item.st_creationtime < 2^64 ∧ item.st_modificationtime < 2^64

def CompressFdsRequest.Fits (turns : Nat) (rq : CompressFdsRequest) : Prop :=
  rq.fstatsList.length < turns ∧ (∀ item ∈ rq.fstatsList, item.Fits) ∧
    rq.destArchive.length < 65536 ∧ rq.password.length < 256

def ExtractRequest.Fits (turns flags : Nat) (rq : ExtractRequest) : Prop :=
  (if b2 flags then ∃ srcArchive, rq.f = [srcArchive] ∧ srcArchive ≠ [] ∧ srcArchive.length < 65536
    else rq.f.length < turns ∧ (∀ s ∈ rq.f, s ≠ [] ∧ s.length < 65536) ∧ rq.currentEntries = []) ∧
  rq.destFolder.length < 65536 ∧ rq.password.length < 256 ∧ rq.currentEntries.length < 2^32 ∧
  (∀ n ∈ rq.currentEntries, n < 2^32) ∧
  (if rq.currentEntries = [] then rq.subDirLengthForPathTruncateInWideChars = 0
    else rq.subDirLengthForPathTruncateInWideChars < 2^32)

/-- The request is well formed: as many bytes come with descriptors as the helper asks for. -/
def LocalRequest.Fits (turns : Nat) (helper : Helper) : LocalRequest → Prop
  | cancel flags => b0 flags = true
  | find flags rq => b0 flags = false ∧ rq.Fits turns
  | hash _ _ _ filepath => filepath.length < 65536
  | compress rq => rq.Fits
  | compressFds flags rq fds =>
    flags ≠ 0 ∧ rq.Fits turns ∧ fds.length = (helper.indices rq).length
  | extract flags rq => rq.Fits turns flags

/-- A child reads no more than its request, and nothing without the library. -/
def LocalRequest.Possible (helper : Helper) (r : LocalRequest) : Prop :=
  ∀ count ∈ helper.reaped,
    count ≤ if helper.lib7zLoaded = true ∧ helper.createObjectFunc = true then r.body.length else 0

def LocalRequest.Taken (helper : Helper) : LocalRequest → Prop
  | cancel _ => True
  | find _ _ => helper.currentSearchInOutDesc = false
  | hash _ algorithm _ _ => algorithm.toNat < rh_hash_maxAlgoIndex
  | r => helper.forks = true ∧ helper.lib7zLoaded = true ∧ helper.createObjectFunc = true ∧
      ∀ count ∈ helper.reaped, count = r.body.length

end RootHelper
