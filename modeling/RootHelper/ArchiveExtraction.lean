import RootHelper.ArchiveListing
import RootHelper.Posix.Containment
import RootHelper.Utils

/-!
Extracting an archive: the callback the archive library asks where to put an item. It makes the
directories above, takes away what stands in the way and opens the file. Strings are wide on this
side and become bytes again at each system call.
-/

set_option autoImplicit false

namespace RootHelper
open Posix Control

abbrev WStr := List UInt32

def wslash : UInt32 := 47
def wcolon : UInt32 := 58

/-- A `UString` made from a pointer. -/
def UString (s : WStr) : WStr := s.takeWhile (· ≠ 0)

/-- Up to a NUL; a byte that does not begin a character goes on with `codepoint`. -/
def UTF8_to_wcharLoop : UInt32 → Str → WStr
  | _, [] => []
  | codepoint, ch :: in_ =>
    if ch = 0 then []
    else
      let codepoint :=
        if ch ≤ 0x7f then ch.toUInt32
        else if ch ≤ 0xbf then (codepoint <<< 6) ||| (ch &&& 0x3f).toUInt32
        else if ch ≤ 0xdf then (ch &&& 0x1f).toUInt32
        else if ch ≤ 0xef then (ch &&& 0x0f).toUInt32
        else (ch &&& 0x07).toUInt32
      if in_.headD 0 &&& 0xc0 ≠ 0x80 ∧ codepoint ≤ 0x10ffff then
        codepoint :: UTF8_to_wcharLoop codepoint in_
      else UTF8_to_wcharLoop codepoint in_

/-- The variable has no value at first: `unset` is what it happens to hold. -/
def UTF8_to_wchar (unset : UInt32) (in_ : Str) : WStr := UTF8_to_wcharLoop unset in_

def nameWindowToUnix2 (name : WStr) : Str := cstr (wchar_to_UTF8 name)

def nameWindowToUnix (lpFileName : Str) : Str :=
  if lpFileName.take 2 = text ['c',':'] then lpFileName.drop 2 else lpFileName

def NormalizeDirPathPrefix (dirPath : WStr) : WStr :=
  if dirPath = [] ∨ dirPath.getLast? = some wslash then dirPath else dirPath ++ [wslash]

def reverseFind (s : WStr) (c : UInt32) : Option Nat :=
  (s.reverse.findIdx? (· = c)).map (s.length - 1 - ·)

def find (s : WStr) (c : UInt32) (startIndex : Nat) : Option Nat :=
  ((s.drop startIndex).findIdx? (· = c)).map (· + startIndex)

inductive PROPID where
  | kpidPath | kpidAttrib | kpidIsDir | kpidMTime | kpidSize
  deriving DecidableEq

/-- The `vt` of an answer, with the values that are looked at. -/
inductive PropVariant where
  | VT_EMPTY
  | VT_BSTR (bstrVal : WStr)
  | VT_BOOL (boolVal : Bool)
  | VT_UI4 (ulVal : UInt32)
  | VT_UI8 | VT_UI2 | VT_UI1
  | VT_FILETIME
  | other
  deriving DecidableEq

inductive HRESULT where
  | S_OK | E_FAIL | E_ABORT
  | other (code : Nat)
  deriving DecidableEq

/-- An archive that has been opened: the properties of its items, and how asking for one fails. -/
abbrev IInArchive := UInt32 → PROPID → Except HRESULT PropVariant

inductive AskMode where
  | kExtract | kTest | kSkip
  deriving DecidableEq

def kEmptyFileAlias : WStr := (text ['[','C','o','n','t','e','n','t',']']).map (·.toUInt32)

variable (sys : System)

def CreateDir (path : WStr) : DiskM (Except Errno Unit) := do
  if UString path = [] then pure (.error .ENOENT)
  else
    match ← sys.mkdir (nameWindowToUnix2 path) 0o700 with
    | .ok _ => pure (.ok ())
    | .error e => pure (.error e)

/-- Upwards from `pathName` to what could be made or is there; its length is the result. The fuel
is the length, which gets smaller each time. -/
def createUpwards : Nat → WStr → DiskM (Option Nat)
  | 0, _ => pure none
  | n+1, pathName => do
    match ← CreateDir sys pathName with
    | .ok () => pure (some pathName.length)
    | .error .EEXIST => pure (some pathName.length)
    | .error _ =>
      match reverseFind pathName wslash with
      | none => pure none
      | some pos =>
        if pos = 0 ∨ pathName[pos-1]? = some wcolon then pure none
        else createUpwards n (pathName.take pos)

/-- And down again from `pos`. -/
def createDownwards (pathName : WStr) : Nat → Nat → DiskM Bool
  | 0, _ => pure false
  | n+1, pos => do
    if pathName.length ≤ pos then pure true
    else
      let pos := (find pathName wslash (pos+1)).getD pathName.length
      match ← CreateDir sys (pathName.take pos) with
      | .error _ => pure false
      | .ok () => createDownwards pathName n pos

def CreateComplexDir (aPathName : WStr) : DiskM Bool := do
  let trailing := 1 < aPathName.length ∧ aPathName.getLast? = some wslash
  if trailing ∧ aPathName.length = 3 ∧ aPathName[1]? = some wcolon then pure true
  else
    let pathName := if trailing then aPathName.dropLast else aPathName
    match ← createUpwards sys (pathName.length+1) pathName with
    | none => pure false
    | some pos => createDownwards sys pathName (pathName.length+1) pos

def DeleteFileAlways (name : WStr) : DiskM Bool := do
  if UString name = [] then pure false
  else
    match ← sys.remove (nameWindowToUnix2 name) with
    | .ok () => pure true
    | .error _ => pure false

def unlinkLink (name : Str) : DiskM Bool := do
  match ← sys.readlink name with
  | .ok (_ :: _) =>
    match ← sys.unlink name with
    | .ok () => pure true
    | .error _ => pure false
  | _ => pure false

def COutFileStream_Open (fileName : WStr) : DiskM (Option (Path × Name)) := do
  let name := nameWindowToUnix (nameWindowToUnix2 fileName)
  let unlinked ← unlinkLink sys name
  if unlinked then pure none
  else
    match ← sys.openCreate name 0o666 with
    | .ok file => pure (some file)
    | .error _ => pure none

/-- What the callback keeps from one call to the next. `Find` is how the library looks for a file;
looking changes nothing, and a name that is too long throws. -/
structure CArchiveExtractCallback where
  _archiveHandler : IInArchive
  _directoryPath : WStr
  subDirLengthForPathTruncateInWideChars : Nat
  streamArchiveOnlyChildFilenameOnly : WStr
  Find : Disk → WStr → Option Bool

/-- The callback as `extractFromArchive` sets it up. -/
def CArchiveExtractCallback.Init (unset : UInt32) (archiveHandler : IInArchive) (destFolder : Str)
    (subDirLength : Nat) (childName : WStr) (Find : Disk → WStr → Option Bool) :
    CArchiveExtractCallback where
  _archiveHandler := archiveHandler
  _directoryPath := NormalizeDirPathPrefix (UString (UTF8_to_wchar unset destFolder))
  subDirLengthForPathTruncateInWideChars := subDirLength
  streamArchiveOnlyChildFilenameOnly := childName
  Find := Find

namespace CArchiveExtractCallback

variable (cb : CArchiveExtractCallback)

def fullPath (index : UInt32) : Except HRESULT (Option WStr) := do
  match ← cb._archiveHandler index .kpidPath with
  | .VT_EMPTY =>
    if cb.streamArchiveOnlyChildFilenameOnly = [] then pure (some kEmptyFileAlias)
    else pure (some (UString cb.streamArchiveOnlyChildFilenameOnly))
  | .VT_BSTR bstrVal => pure (if UString bstrVal = [] then none else some (UString bstrVal))
  | _ => throw .E_FAIL

def _filePath (fullPath : WStr) : WStr :=
  if cb.subDirLengthForPathTruncateInWideChars = 0 then fullPath
  else if fullPath.length < cb.subDirLengthForPathTruncateInWideChars then fullPath
  else fullPath.drop cb.subDirLengthForPathTruncateInWideChars

/-- The other properties are looked at in turn; the result says whether the item is a folder. -/
def isDir (index : UInt32) : Except HRESULT Bool := do
  match ← cb._archiveHandler index .kpidAttrib with
  | .VT_EMPTY | .VT_UI4 _ => pure ()
  | _ => throw .E_FAIL
  let isDir ← match ← cb._archiveHandler index .kpidIsDir with
    | .VT_BOOL boolVal => pure boolVal
    | .VT_EMPTY => pure false
    | _ => throw .E_FAIL
  match ← cb._archiveHandler index .kpidMTime with
  | .VT_EMPTY | .VT_FILETIME => pure ()
  | _ => throw .E_FAIL
  pure isDir

def sizeConverts (index : UInt32) : Except HRESULT Bool := do
  match ← cb._archiveHandler index .kpidSize with
  | .VT_UI8 | .VT_UI4 _ | .VT_UI2 | .VT_UI1 | .VT_EMPTY => pure true
  | _ => pure false

def createFolders (filePath : WStr) : DiskM Unit :=
  match reverseFind filePath wslash with
  | some slashPos => do
    let _ ← CreateComplexDir sys (cb._directoryPath ++ filePath.take slashPos)
    pure ()
  | none => pure ()

def clearTheWay (fullProcessedPath : WStr) : DiskM Bool := do
  match cb.Find (← get) fullProcessedPath with
  | some true => DeleteFileAlways sys fullProcessedPath
  | some false => pure true
  | none => throw .crash

def openFile (fullProcessedPath : WStr) : DiskM (HRESULT × Option (Path × Name)) := do
  let cleared ← cb.clearTheWay sys fullProcessedPath
  if cleared then
    match ← COutFileStream_Open sys fullProcessedPath with
    | some file => pure (.S_OK,some file)
    | none => pure (.E_ABORT,none)
  else pure (.E_ABORT,none)

def place (filePath : WStr) (isDir : Bool) : DiskM (HRESULT × Option (Path × Name)) := do
  cb.createFolders sys filePath
  let fullProcessedPath := cb._directoryPath ++ filePath
  if isDir then do
    let _ ← CreateComplexDir sys fullProcessedPath
    pure (.S_OK,none)
  else cb.openFile sys fullProcessedPath

def asked (index : UInt32) (askExtractMode : AskMode) :
    Except HRESULT (Option (WStr × Bool × Bool)) := do
  match ← cb.fullPath index with
  | none => pure none
  | some fullPath =>
    if askExtractMode ≠ .kExtract then pure none
    else do
      let isDir ← cb.isDir index
      let converts ← cb.sizeConverts index
      pure (some (cb._filePath fullPath,isDir,converts))

def GetStream (index : UInt32) (askExtractMode : AskMode) :
    DiskM (HRESULT × Option (Path × Name)) :=
  match cb.asked index askExtractMode with
  | .error hr => pure (hr,none)
  | .ok none => pure (.S_OK,none)
  | .ok (some (_,_,false)) => throw .crash
  | .ok (some (filePath,isDir,true)) => cb.place sys filePath isDir

end CArchiveExtractCallback

/-- A run of the library's extraction: it asks for items in any order and any number of times, and
between its questions it and others may write what they like. Each question must meet `ok`. -/
inductive Extracts (cb : CArchiveExtractCallback) (ok : FileSystem → UInt32 → AskMode → Prop) :
    Disk → Disk → Prop
  | start (d : Disk) : Extracts cb ok d d
  | getStream {d d' : Disk} (index : UInt32) (askExtractMode : AskMode) :
      Extracts cb ok d d' → ok d'.fs index askExtractMode →
      Extracts cb ok d (final (cb.GetStream sys index askExtractMode) d')
  | elsewhere {d d' : Disk} (fs : FileSystem) :
      Extracts cb ok d d' → Extracts cb ok d { d' with fs := fs }

end RootHelper
