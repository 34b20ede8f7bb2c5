import RootHelper.Control.Framing
import RootHelper.Wire

/-!
Descriptors that take and give bytes piece by piece, and the values every handler reads from one
and writes to one. The readers and writers only use `readAllOrExit` and `writeAllOrExit`.
-/

set_option autoImplicit false

namespace RootHelper
open Posix Control

/-- `read` gives its result with the bytes it has put into the buffer. -/
structure Descriptor (ε σ : Type) where
  read : Nat → EStateM ε σ (Int × Str)
  write : Str → EStateM ε σ Int
  close : EStateM ε σ Unit
  threadExit : ε
  /-- A loop that goes on for ever. -/
  diverges : ε

namespace Descriptor

variable {ε σ : Type} (d : Descriptor ε σ)

/-- The turns of `readAll` with `remaining` of `count` bytes to come behind those in `buf`. -/
def readAllLoop (count : Nat) : Nat → Nat → Str → EStateM ε σ (Int × Str)
  | 0, _, _ => throw d.diverges
  | turns+1, remaining, buf => do
    let (curr,bytes) ← d.read remaining
    if curr ≤ 0 then pure (curr,buf)
    else
      let remaining := remaining - curr.toNat
      if remaining = 0 then pure (count,buf ++ bytes)
      else readAllLoop count turns remaining (buf ++ bytes)

def readAll (count : Nat) : EStateM ε σ (Int × Str) := d.readAllLoop count (count+1) count []

def readAllOrExit (count : Nat) : EStateM ε σ Str := do
  let (readBytes,buf) ← d.readAll count
  if readBytes < count then do
    d.close
    throw d.threadExit
  else pure buf

/-- The turns of `writeAll` with the bytes of `buf` still to be written. -/
def writeAllLoop (count : Nat) : Nat → Str → EStateM ε σ Int
  | 0, _ => throw d.diverges
  | turns+1, buf => do
    let curr ← d.write buf
    if curr ≤ 0 then pure curr
    else
      let rest := buf.drop curr.toNat
      if rest = [] then pure count else writeAllLoop count turns rest

def writeAll (buf : Str) : EStateM ε σ Int := d.writeAllLoop buf.length (buf.length+1) buf

def writeAllOrExit (buf : Str) : EStateM ε σ Unit := do
  let writtenBytes ← d.writeAll buf
  if writtenBytes < buf.length then do
    d.close
    throw d.threadExit
  else pure ()

end Descriptor

/-- What the readers need of a descriptor. -/
structure Source (ε σ : Type) where
  readAllOrExit : Nat → EStateM ε σ Str
  diverges : ε

/-- What the writers need of one. -/
structure Sink (ε σ : Type) where
  writeAllOrExit : Chunk → EStateM ε σ Unit

structure Desc (ε σ : Type) extends Source ε σ, Sink ε σ

def Descriptor.desc {ε σ : Type} (d : Descriptor ε σ) : Desc ε σ where
  readAllOrExit := d.readAllOrExit
  writeAllOrExit c := d.writeAllOrExit c.encode
  diverges := d.diverges

section Over

variable {ε σ τ : Type}

def Source.over (L : Lens σ τ) (src : Source ε τ) : Source ε σ where
  readAllOrExit count := L.run (src.readAllOrExit count)
  diverges := src.diverges

def Sink.over (L : Lens σ τ) (snk : Sink ε τ) : Sink ε σ where
  writeAllOrExit c := L.run (snk.writeAllOrExit c)

def Desc.over (L : Lens σ τ) (d : Desc ε τ) : Desc ε σ where
  toSource := d.toSource.over L
  toSink := d.toSink.over L

end Over

structure singleStats_resp_t where
  group : Str
  owner : Str
  creationTime : UInt32
  lastAccessTime : UInt32
  modificationTime : UInt32
  /-- A `char[10]`. -/
  permissions : Str
  size : UInt64
  deriving DecidableEq, Repr

structure folderStats_resp_t where
  childrenDirs : UInt64
  childrenFiles : UInt64
  totalDirs : UInt64
  totalFiles : UInt64
  totalSize : UInt64
  deriving DecidableEq, Repr

namespace Source

variable {ε σ : Type} (desc : Source ε σ)

def readU8 : EStateM ε σ Byte := do
  let s ← desc.readAllOrExit 1
  pure (s.headD 0)

def readU16 : EStateM ε σ Nat := fromLittleEndian <$> desc.readAllOrExit 2
def readU32 : EStateM ε σ Nat := fromLittleEndian <$> desc.readAllOrExit 4
def readU64 : EStateM ε σ Nat := fromLittleEndian <$> desc.readAllOrExit 8

def readStringWithLen : EStateM ε σ Str := do
  let len ← desc.readU16
  if len = 0 then pure [] else desc.readAllOrExit len

def readPairOfStringsWithPairOfLens : EStateM ε σ (Str × Str) := do
  let len₀ ← desc.readU16
  let len₁ ← desc.readU16
  if len₀ = 0 then pure ([],[])
  else do
    let s ← desc.readAllOrExit len₀
    let t ← desc.readAllOrExit len₁
    pure (s,t)

def receiveBaseResponse : EStateM ε σ Nat := do
  let resp ← desc.readU8
  if resp = RESPONSE_OK then pure 0 else desc.readU32

/-- At most `turns` pairs. -/
def receivePathPairsList : Nat → EStateM ε σ (List (Str × Str))
  | 0 => throw desc.diverges
  | turns+1 => do
    let f ← desc.readPairOfStringsWithPairOfLens
    if f.1 = [] then pure []
    else do
      let v ← receivePathPairsList turns
      pure (f :: v)

def readsingleStats_resp : EStateM ε σ singleStats_resp_t := do
  let len ← desc.readU8
  let group ← desc.readAllOrExit len.toNat
  let len ← desc.readU8
  let owner ← desc.readAllOrExit len.toNat
  let creationTime ← desc.readU32
  let lastAccessTime ← desc.readU32
  let modificationTime ← desc.readU32
  let permissions ← desc.readAllOrExit 10
  let size ← desc.readU64
  pure {
    group := group
    owner := owner
    creationTime := .ofNat creationTime
    lastAccessTime := .ofNat lastAccessTime
    modificationTime := .ofNat modificationTime
    permissions := permissions
    size := .ofNat size }

def readfolderStats_resp : EStateM ε σ folderStats_resp_t := do
  let childrenDirs ← desc.readU64
  let childrenFiles ← desc.readU64
  let totalDirs ← desc.readU64
  let totalFiles ← desc.readU64
  let totalSize ← desc.readU64
  pure {
    childrenDirs := .ofNat childrenDirs
    childrenFiles := .ofNat childrenFiles
    totalDirs := .ofNat totalDirs
    totalFiles := .ofNat totalFiles
    totalSize := .ofNat totalSize }

end Source

namespace Sink

variable {ε σ : Type} (desc : Sink ε σ)

/-- The length is cut to sixteen bits, and as many bytes are sent. -/
def writeStringWithLen (s : Str) : EStateM ε σ Unit := do
  let len := s.length % 65536
  desc.writeAllOrExit (.u16 len)
  desc.writeAllOrExit (.bytes (s.take len))

def writePairOfStringsWithPairOfLens (v : Str × Str) : EStateM ε σ Unit := do
  let len₀ := v.1.length % 65536
  let len₁ := v.2.length % 65536
  desc.writeAllOrExit (.u16 len₀)
  desc.writeAllOrExit (.u16 len₁)
  if len₀ = 0 then pure ()
  else do
    desc.writeAllOrExit (.bytes (v.1.take len₀))
    desc.writeAllOrExit (.bytes (v.2.take len₁))

def sendBaseResponse (ret : Int) (errno : Nat) : EStateM ε σ Unit :=
  if ret = 0 then desc.writeAllOrExit (.u8 RESPONSE_OK)
  else do
    desc.writeAllOrExit (.u8 RESPONSE_ERROR)
    desc.writeAllOrExit (.u32 errno)

def pathPairRequest (item : Str × Str) : Str :=
  let sz₀ := item.1.length % 65536
  let sz₁ := item.2.length % 65536
  littleEndian 2 sz₀ ++ littleEndian 2 sz₁ ++ item.1.take sz₀ ++ item.2.take sz₁

def sendPathPairs : List (Str × Str) → EStateM ε σ Unit
  | [] => pure ()
  | item :: pathPairs => do
    desc.writeAllOrExit (.bytes (pathPairRequest item))
    sendPathPairs pathPairs

def sendPathPairsList (pathPairs : List (Str × Str)) : EStateM ε σ Unit := do
  desc.sendPathPairs pathPairs
  desc.writeAllOrExit (.u32 0)

def writesingleStats_resp (r : singleStats_resp_t) : EStateM ε σ Unit := do
  let len := UInt8.ofNat r.group.length
  desc.writeAllOrExit (.u8 len)
  desc.writeAllOrExit (.bytes (r.group.take len.toNat))
  let len := UInt8.ofNat r.owner.length
  desc.writeAllOrExit (.u8 len)
  desc.writeAllOrExit (.bytes (r.owner.take len.toNat))
  desc.writeAllOrExit (.u32 r.creationTime.toNat)
  desc.writeAllOrExit (.u32 r.lastAccessTime.toNat)
  desc.writeAllOrExit (.u32 r.modificationTime.toNat)
  desc.writeAllOrExit (.bytes (r.permissions.take 10))
  desc.writeAllOrExit (.u64 r.size.toNat)

def writefolderStats_resp (r : folderStats_resp_t) : EStateM ε σ Unit := do
  desc.writeAllOrExit (.u64 r.childrenDirs.toNat)
  desc.writeAllOrExit (.u64 r.childrenFiles.toNat)
  desc.writeAllOrExit (.u64 r.totalDirs.toNat)
  desc.writeAllOrExit (.u64 r.totalFiles.toNat)
  desc.writeAllOrExit (.u64 r.totalSize.toNat)

end Sink

/-- The client connection as the handlers use it. -/
def connDesc : Desc Stop Conn where
  readAllOrExit := readAllOrExit
  writeAllOrExit := writeAllOrExit
  diverges := .diverged

end RootHelper
