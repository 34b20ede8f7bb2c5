import RootHelper.Listings

/-!
Listing an archive: one entry for each item the archive library knows of, behind which a length of 0
ends the list. The library and what it finds in a file are a parameter.
-/

set_option autoImplicit false

namespace RootHelper
open Posix Control

variable {ε σ : Type}

inductive ArchiveType where
  | _7Z | XZ | RAR | RAR5 | ZIP | CAB | GZ | BZ2 | TAR | UNKNOWN
  deriving DecidableEq, Repr

def rh_archive_headers : List (ArchiveType × Str) :=
  [(._7Z,[0x37,0x7A,0xBC,0xAF,0x27,0x1C]),
    (.XZ,[0xFD,0x37,0x7A,0x58,0x5A,0x00]),
    (.RAR,[0x52,0x61,0x72,0x21,0x1A,0x07,0x00]),
    (.RAR5,[0x52,0x61,0x72,0x21,0x1A,0x07,0x01,0x00]),
    (.ZIP,[0x50,0x4B,0x03,0x04]),
    (.CAB,[0x4D,0x53,0x43,0x46]),
    (.GZ,[0x1F,0x8B,0x08]),
    (.BZ2,[0x42,0x5A,0x68])]

def tar_header : Str := [0x75,0x73,0x74,0x61,0x72]
def tar_header_offset : Nat := 0x101

/-- From the first 512 bytes of a file, if it can be opened. -/
def detectArchiveType : Option Str → ArchiveType
  | none => .UNKNOWN
  | some h =>
    if h.length < 8 then .UNKNOWN
    else
      match rh_archive_headers.find? fun cur => cur.2.isPrefixOf h with
      | some cur => cur.1
      | none =>
        if tar_header_offset + tar_header.length ≤ h.length ∧
            tar_header.isPrefixOf (h.drop tar_header_offset) then .TAR
        else .UNKNOWN

/-- An archive of one stream has no list. -/
def ArchiveType.isStream : ArchiveType → Bool
  | XZ | GZ | BZ2 => true
  | _ => false

def toUppercaseStringCopy (s : Str) : Str := s.map fun b => if 97 ≤ b ∧ b ≤ 122 then b - 32 else b

def has_suffix (str suffix : Str) : Bool := suffix.isSuffixOf str

def streamExt : ArchiveType → Str
  | .XZ => text ['.','X','Z']
  | .GZ => text ['.','G','Z']
  | .BZ2 => text ['.','B','Z','2']
  | _ => []

def getVirtualInnerNameForStreamArchive (archiveName : Str) (archiveType : ArchiveType) : Str :=
  let ext := streamExt archiveType
  if has_suffix (toUppercaseStringCopy archiveName) ext then
    archiveName.take (archiveName.length - ext.length)
  else archiveName

def utf8 (codepoint : UInt32) : Str :=
  let lead (mark bits shift : UInt32) : Byte := (mark ||| ((codepoint >>> shift) &&& bits)).toUInt8
  let cont (shift : UInt32) : Byte := (0x80 ||| ((codepoint >>> shift) &&& 0x3f)).toUInt8
  if codepoint ≤ 0x7f then [codepoint.toUInt8]
  else if codepoint ≤ 0x7ff then [lead 0xc0 0x1f 6,cont 0]
  else if codepoint ≤ 0xffff then [lead 0xe0 0x0f 12,cont 6,cont 0]
  else [lead 0xf0 0x07 18,cont 12,cont 6,cont 0]

/-- Up to a NUL; the first half of a pair waits for what follows. -/
def wchar_to_UTF8Loop : UInt32 → List UInt32 → Str
  | _, [] => []
  | codepoint, c :: in_ =>
    if c = 0 then []
    else if 0xd800 ≤ c ∧ c ≤ 0xdbff then wchar_to_UTF8Loop (((c - 0xd800) <<< 10) + 0x10000) in_
    else
      let codepoint := if 0xdc00 ≤ c ∧ c ≤ 0xdfff then codepoint ||| (c - 0xdc00) else c
      utf8 codepoint ++ wchar_to_UTF8Loop 0 in_

/-- A `wchar_t` has four bytes. -/
def wchar_to_UTF8 (in_ : List UInt32) : Str := wchar_to_UTF8Loop 0 in_

/-- The path of an item: a string, missing, or something else. -/
inductive PathProp where
  | VT_BSTR (bstrVal : List UInt32)
  | VT_EMPTY
  | other
  deriving DecidableEq, Repr

structure ArchiveItem where
  /-- What `atol` makes of its text. -/
  kpidSize : UInt64
  kpidPath : PathProp
  /-- A `VT_FILETIME`. -/
  kpidMTime : Option Int
  /-- A `VT_BOOL`. -/
  kpidIsDir : Option Bool
  deriving DecidableEq, Repr

def errorName : Str := text ['E','R','R','O','R']

def TICKS_PER_SECOND : Int := 10000000
def EPOCH_DIFFERENCE : Int := 11644473600

def convertWindowsTimeToUnixTime (input : Int) : Int := input.tdiv TICKS_PER_SECOND - EPOCH_DIFFERENCE

def archiveEntry (item : ArchiveItem) : ls_resp_t :=
  let (filename,is_invalid) := match item.kpidPath with
    | .VT_BSTR u =>
      if wchar_to_UTF8 u = [] then (errorName,true) else (wchar_to_UTF8 u,false)
    | .VT_EMPTY => ([],false)
    | .other => (errorName,false)
  { filename := filename
    date := match item.kpidMTime with
      | some filetime => .ofNat (convertWindowsTimeToUnixTime filetime % 2^32).toNat
      | none => 0
    permissions :=
      if is_invalid then List.replicate 10 33
      else if item.kpidIsDir = some true then 100 :: List.replicate 9 45
      else List.replicate 10 45
    size := item.kpidSize }

def streamEntry (archiveName : Str) (archiveType : ArchiveType) : ls_resp_t where
  filename := getVirtualInnerNameForStreamArchive archiveName archiveType
  date := 0
  permissions := List.replicate 10 45
  size := 0

/-- The archive library, and what it finds by which path and password. -/
structure ArchiveLibrary where
  lib7zLoaded : Bool
  createObjectFunc : Bool
  /-- The first bytes of a file. -/
  fread : Str → Option Str
  createObject : ArchiveType → Bool
  openFile : Str → Bool
  openArchive : ArchiveType → Str → Str → Option (List ArchiveItem)

def EACCES : Nat := 13
def NULL_OR_WRONG_PASSWORD : Nat := 0x101010

/-- What there is to be listed, or the result and the error number. -/
inductive Opened where
  | error (ret : Int) (errno : Nat)
  | stream (archiveType : ArchiveType)
  | items (items : List ArchiveItem)
  deriving DecidableEq, Repr

def ArchiveLibrary.opened (lib : ArchiveLibrary) (archivepath password : Str) : Opened :=
  let archiveType := detectArchiveType (lib.fread archivepath)
  if archiveType = .UNKNOWN then .error (-2) 23458
  else if archiveType.isStream then .stream archiveType
  else if ¬ lib.createObject archiveType then .error (-1) 23459
  else if ¬ lib.openFile archivepath then .error (-1) EACCES
  else
    match lib.openArchive archiveType archivepath password with
    | none => .error (-1) NULL_OR_WRONG_PASSWORD
    | some items => .items items

/-- 2 when not all items have the same first name, else 1. -/
def singleItem : Str → List ArchiveItem → Nat
  | _, [] => 1
  | currentTopItem, item :: items =>
    let newTopItem := (archiveEntry item).filename.takeWhile (· ≠ slash)
    if currentTopItem = [] then singleItem newTopItem items
    else if newTopItem ≠ currentTopItem then 2
    else singleItem currentTopItem items

def Source.readStringWithByteLen (desc : Source ε σ) : EStateM ε σ Str := do
  let len ← desc.readU8
  if len = 0 then pure [] else desc.readAllOrExit len.toNat

section Server

variable (inOutDesc : ServerEnd ε σ) (lib : ArchiveLibrary) (threadExit processExit : ε)

def writeLsRespOrExit (entry : ls_resp_t) : EStateM ε σ Unit := do
  let ret ← writels_resp inOutDesc.write entry
  if ret < 0 then throw threadExit else pure ()

def writeLsResps : List ls_resp_t → EStateM ε σ Unit
  | [] => pure ()
  | entry :: entries => do
    writeLsRespOrExit inOutDesc threadExit entry
    writeLsResps entries

def listStreamArchive (archiveName : Str) (archiveType : ArchiveType) : EStateM ε σ Unit := do
  inOutDesc.desc.writeAllOrExit (.u8 RESPONSE_OK)
  writeLsRespOrExit inOutDesc threadExit (streamEntry archiveName archiveType)
  inOutDesc.desc.writeAllOrExit (.u16 0)

def listArchiveInternal (archivepath password : Str) : EStateM ε σ Unit :=
  if ¬ lib.lib7zLoaded then inOutDesc.desc.sendBaseResponse (-1) 771
  else if ¬ lib.createObjectFunc then throw processExit
  else
    match lib.opened archivepath password with
    | .error _ errno => inOutDesc.desc.sendBaseResponse (-1) errno
    | .stream archiveType =>
      listStreamArchive inOutDesc threadExit (getFilenameFromFullPath archivepath) archiveType
    | .items items => do
      inOutDesc.desc.writeAllOrExit (.u8 RESPONSE_OK)
      writeLsResps inOutDesc threadExit (items.map archiveEntry)
      inOutDesc.desc.writeAllOrExit (.u16 0)

/-- Without one: whether there is a single item. -/
def checkForSingleItem (archivepath password : Str) : EStateM ε σ Unit :=
  if ¬ lib.lib7zLoaded then inOutDesc.desc.sendBaseResponse (-1) 771
  else if ¬ lib.createObjectFunc then throw processExit
  else
    match lib.opened archivepath password with
    | .error _ errno => inOutDesc.desc.sendBaseResponse (-1) errno
    | .stream _ => do
      inOutDesc.desc.sendBaseResponse 0 0
      inOutDesc.desc.writeAllOrExit (.u64 1)
    | .items items => do
      inOutDesc.desc.sendBaseResponse 0 0
      inOutDesc.desc.writeAllOrExit (.u64 (singleItem [] items))

def listArchive (flags : Nat) : EStateM ε σ Unit := do
  let archivepath ← inOutDesc.desc.readStringWithLen
  let password ← inOutDesc.desc.readStringWithByteLen
  if flags = 7 then listArchiveInternal inOutDesc lib threadExit processExit archivepath password
  else checkForSingleItem inOutDesc lib processExit archivepath password

end Server

/-- The path is not missing, and the length of its text is no multiple of 65536, unless it is empty and
replaced. -/
def ArchiveItem.Named (item : ArchiveItem) : Prop :=
  match item.kpidPath with
  | .VT_BSTR u => wchar_to_UTF8 u = [] ∨ (wchar_to_UTF8 u).length % 65536 ≠ 0
  | .VT_EMPTY => False
  | .other => True

/-- There is a name besides the extension. -/
def StreamNamed (archiveName : Str) (archiveType : ArchiveType) : Prop :=
  archiveName ≠ [] ∧ toUppercaseStringCopy archiveName ≠ streamExt archiveType

def Opened.Named (archiveName : Str) : Opened → Prop
  | .error _ _ => False
  | .stream archiveType => StreamNamed archiveName archiveType
  | .items l => ∀ item ∈ l, item.Named

/-- What is sent one after the other. -/
def Opened.entries (archiveName : Str) : Opened → List ls_resp_t
  | .error _ _ => []
  | .stream archiveType => [streamEntry archiveName archiveType]
  | .items l => l.map archiveEntry

section Names

theorem archiveEntry_named (item : ArchiveItem) :
    (archiveEntry item).filename.length % 65536 ≠ 0 ↔ item.Named := by
  unfold archiveEntry ArchiveItem.Named
  cases item.kpidPath with
  | VT_BSTR u =>
    simp only
    by_cases hempty : wchar_to_UTF8 u = []
    · rw [if_pos hempty]
      exact iff_of_true (by decide) (.inl hempty)
    · rw [if_neg hempty]
      exact ⟨.inr,fun h => h.resolve_left hempty⟩
  | VT_EMPTY => simp
  | other =>
    refine iff_of_true ?_ trivial
    change errorName.length % 65536 ≠ 0
    decide

theorem length_archiveEntry_permissions (item : ArchiveItem) :
    (archiveEntry item).permissions.length = 10 := by
  unfold archiveEntry
  simp only
  split_ifs <;> simp

theorem streamEntry_named {archiveName : Str} {archiveType : ArchiveType}
    (hstream : archiveType.isStream = true) (hlen : archiveName.length < 65536) :
    (streamEntry archiveName archiveType).filename.length % 65536 ≠ 0 ↔
      StreamNamed archiveName archiveType := by
  have hext : 0 < (streamExt archiveType).length := by
    cases archiveType <;> first | decide | cases hstream
  have hupper : (toUppercaseStringCopy archiveName).length = archiveName.length := List.length_map _
  simp only [streamEntry,getVirtualInnerNameForStreamArchive,StreamNamed,has_suffix,
    List.isSuffixOf_iff_suffix]
  by_cases hsuffix : streamExt archiveType <:+ toUppercaseStringCopy archiveName
  · have hle := hsuffix.length_le
    rw [if_pos hsuffix,List.length_take]
    constructor
    · intro h
      refine ⟨fun hempty => ?_,fun heq => ?_⟩
      · rw [hempty] at hle
        simp only [toUppercaseStringCopy,List.map_nil,List.length_nil] at hle
        omega
      · rw [← heq,hupper] at h
        simp at h
    · intro h
      have hne : (streamExt archiveType).length ≠ (toUppercaseStringCopy archiveName).length :=
        fun heq => h.2 (hsuffix.eq_of_length heq).symm
      omega
  · rw [if_neg hsuffix,Nat.mod_eq_of_lt hlen]
    constructor
    · intro h
      exact ⟨fun hempty => h (by rw [hempty]; rfl),fun heq => hsuffix (heq ▸ List.suffix_refl _)⟩
    · exact fun h hzero => h.1 (List.length_eq_zero_iff.mp hzero)

end Names

theorem named_entries {archiveName : Str} {o : Opened} (hname : archiveName.length < 65536)
    (hopened : ∀ ret errno, o ≠ .error ret errno)
    (hstream : ∀ archiveType, o = .stream archiveType → archiveType.isStream = true) :
    (∀ e ∈ o.entries archiveName, e.filename.length % 65536 ≠ 0) ↔ o.Named archiveName := by
  cases o with
  | error ret errno => exact absurd rfl (hopened ret errno)
  | stream archiveType =>
    rw [Opened.entries,List.forall_mem_singleton]
    exact streamEntry_named (hstream archiveType rfl) hname
  | items l =>
    simp only [Opened.entries,Opened.Named,List.forall_mem_map,archiveEntry_named]

theorem named_of_listing {is es : List ls_resp_t} (hperm : ∀ i ∈ is, i.permissions.length = 10)
    (hfits : ∀ e ∈ es, e.Fits) (hlen : es.length = is.length)
    (h : listing (is.map ls_resp_t.cut) = listing es) :
    ∀ i ∈ is, i.filename.length % 65536 ≠ 0 := by
  induction is generalizing es with
  | nil => exact fun i hi => absurd hi List.not_mem_nil
  | cons i is ih =>
    cases es with
    | nil => simp at hlen
    | cons e es =>
      obtain ⟨hne,hlt,hten⟩ := hfits e List.mem_cons_self
      have hcons : ∀ (x : ls_resp_t) l, listing (x :: l) = littleEndian 2 x.filename.length ++
          (x.filename ++ (littleEndian 4 x.date.toNat ++ (x.permissions ++ littleEndian 8 x.size.toNat)) ++
            listing l) := by
        intro x l
        simp [listing,ls_resp_t.bytes,List.append_assoc]
      rw [List.map_cons,hcons,hcons] at h
      -- the two lengths first, and with them all of the two entries
      obtain ⟨hlens,hrest⟩ := List.append_inj h (by simp)
      have hlt' : i.cut.filename.length < 65536 := by
        rw [ls_resp_t.cut,length_cutString]
        exact Nat.mod_lt _ (by decide)
      have hsame : i.cut.filename.length = e.filename.length := by
        have hread := congrArg fromLittleEndian hlens
        have hpow : 256^2 = 65536 := rfl
        rw [fromLittleEndian_littleEndian,fromLittleEndian_littleEndian,hpow] at hread
        rwa [Nat.mod_eq_of_lt hlt',Nat.mod_eq_of_lt hlt] at hread
      obtain ⟨_,hrest⟩ := List.append_inj hrest (by
        have hi : i.cut.permissions.length = 10 := hperm i List.mem_cons_self
        simp only [List.length_append,length_littleEndian,hsame,hi,hten])
      intro j hj
      rcases List.mem_cons.mp hj with rfl | hj
      · have hcut : j.cut.filename.length = j.filename.length % 65536 := length_cutString _
        rw [← hcut,hsame]
        exact fun hzero => hne (List.length_eq_zero_iff.mp hzero)
      · exact ih (fun i hi => hperm i (List.mem_cons_of_mem _ hi))
          (fun e he => hfits e (List.mem_cons_of_mem _ he)) (by simpa using hlen) hrest j hj

/-- An entry shows what it is sent for: all but the name is the same, and of that it has a front. -/
def ls_resp_t.ShownBy (i e : ls_resp_t) : Prop :=
  e.filename <+: i.filename ∧ e.date = i.date ∧ e.permissions = i.permissions ∧ e.size = i.size

theorem listing_iff {is : List ls_resp_t} (hperm : ∀ i ∈ is, i.permissions.length = 10) :
    (∃ es, (∀ e ∈ es, e.Fits) ∧ List.Forall₂ ls_resp_t.ShownBy is es ∧
      listing (is.map ls_resp_t.cut) = listing es) ↔ ∀ i ∈ is, i.filename.length % 65536 ≠ 0 := by
  constructor
  · intro h
    obtain ⟨es,hfits,hshown,heq⟩ := h
    exact named_of_listing hperm hfits hshown.length_eq.symm heq
  · intro hnamed
    refine ⟨is.map ls_resp_t.cut,fun e he => ?_,?_,rfl⟩
    · obtain ⟨i,hi,rfl⟩ := List.mem_map.mp he
      have hcut : i.cut.filename.length = i.filename.length % 65536 := length_cutString _
      refine ⟨fun hempty => hnamed i hi ?_,?_,hperm i hi⟩
      · rw [← hcut,hempty]
        rfl
      · rw [hcut]
        exact Nat.mod_lt _ (by decide)
    · rw [List.forall₂_map_right_iff,List.forall₂_same]
      exact fun i _ => ⟨List.take_prefix _ _,rfl,rfl,rfl⟩

section Written

variable {inOutDesc : ServerEnd ε σ} {lib : ArchiveLibrary} {threadExit processExit : ε}
  {at_ : σ → Str → Prop}

theorem prints_lsResp (h : Completes inOutDesc.write at_) {entry : ls_resp_t}
    (hperm : entry.permissions.length = 10) :
    Prints at_ (writeLsRespOrExit inOutDesc threadExit entry) entry.cut.bytes := by
  intro s cs hs
  unfold writeLsRespOrExit
  rw [wp_bind]
  refine wp_mono (wp_writels_resp_cut h hperm hs) (fun r t hr => ?_) fun _ _ h => h
  obtain ⟨rfl,ht⟩ := hr
  rw [if_neg (by simp)]
  exact ht

theorem prints_lsResps (h : Completes inOutDesc.write at_) {entries : List ls_resp_t}
    (hperm : ∀ e ∈ entries, e.permissions.length = 10) :
    Prints at_ (writeLsResps inOutDesc threadExit entries)
      ((entries.map ls_resp_t.cut).flatMap ls_resp_t.bytes) := by
  induction entries with
  | nil => exact prints_pure ()
  | cons entry entries ih =>
    exact (prints_lsResp h (hperm entry List.mem_cons_self)).bind fun _ =>
      ih fun e he => hperm e (List.mem_cons_of_mem _ he)

theorem permissions_of_entries {archiveName : Str} (o : Opened) :
    ∀ e ∈ o.entries archiveName, e.permissions.length = 10 := by
  intro e he
  cases o with
  | error ret errno => exact absurd he List.not_mem_nil
  | stream archiveType =>
    obtain rfl := List.mem_singleton.mp he
    exact List.length_replicate
  | items l =>
    obtain ⟨item,_,rfl⟩ := List.mem_map.mp he
    exact length_archiveEntry_permissions item

theorem prints_listArchive (hwrites : inOutDesc.desc.toSink.Writes at_)
    (hcomplete : Completes inOutDesc.write at_) (hloaded : lib.lib7zLoaded = true)
    (hcreate : lib.createObjectFunc = true) {archivepath password : Str}
    (hopened : ∀ ret errno, lib.opened archivepath password ≠ .error ret errno) :
    Prints at_ (listArchiveInternal inOutDesc lib threadExit processExit archivepath password)
      (RESPONSE_OK :: listing (((lib.opened archivepath password).entries
        (getFilenameFromFullPath archivepath)).map ls_resp_t.cut)) := by
  unfold listArchiveInternal
  rw [if_neg (by simp [hloaded]),if_neg (by simp [hcreate])]
  have hok := hwrites (.u8 RESPONSE_OK)
  have hend := hwrites (.u16 0)
  cases ho : lib.opened archivepath password with
  | error ret errno => exact absurd ho (hopened ret errno)
  | stream archiveType =>
    have hentry : Prints at_ (writeLsRespOrExit inOutDesc threadExit
        (streamEntry (getFilenameFromFullPath archivepath) archiveType)) _ :=
      prints_lsResp hcomplete List.length_replicate
    have hall := hok.bind fun _ => hentry.bind fun _ => hend
    rw [Opened.entries,List.map_singleton,listing,List.flatMap_singleton]
    exact hall
  | items l =>
    have hentries : Prints at_ (writeLsResps inOutDesc threadExit (l.map archiveEntry)) _ :=
      prints_lsResps hcomplete fun e he => by
        obtain ⟨item,_,rfl⟩ := List.mem_map.mp he
        exact length_archiveEntry_permissions item
    exact hok.bind fun _ => hentries.bind fun _ => hend

end Written

theorem parses_stringByte {src : Source ε σ} {at_ : σ → Str → Prop} (h : src.ReadsSome at_) {s : Str}
    (hs : s.length < 256) :
    Parses at_ src.readStringWithByteLen ([.ofNat s.length] ++ s) s := by
  have hlen : (UInt8.ofNat s.length).toNat = s.length := by simp [Nat.mod_eq_of_lt hs]
  refine (parses_u8 h (.ofNat s.length)).bind ?_
  split_ifs with hempty
  · have hzero : s.length = 0 := by rw [← hlen,hempty]; rfl
    rw [List.length_eq_zero_iff.mp hzero]
    exact parses_pure []
  · rw [hlen]
    exact h s fun hs => hempty (by rw [hs]; rfl)

theorem isStream_of_opened {lib : ArchiveLibrary} {archivepath password : Str}
    {archiveType : ArchiveType} (h : lib.opened archivepath password = .stream archiveType) :
    archiveType.isStream = true := by
  unfold ArchiveLibrary.opened at h
  simp only at h
  split_ifs at h with _ hstream
  · exact Opened.stream.inj h ▸ hstream
  · split at h <;> cases h

section Exchanged

variable {α β γ δ : Type} {net : Network ε α β γ δ} {lib : ArchiveLibrary}
  {threadExit processExit : ε} {archivepath password next later out : Str} {t : Ways α β γ δ}

theorem wp_listArchive (hcomplete : net.fromServer.Complete) (hloaded : lib.lib7zLoaded = true)
    (hcreate : lib.createObjectFunc = true) (hpath : archivepath.length < 65536)
    (hpassword : password.length < 256)
    (hopened : ∀ ret errno, lib.opened archivepath password ≠ .error ret errno)
    (ht : net.Holds t ⟨next,out,stringBytes archivepath ++
      ([.ofNat password.length] ++ password ++ later),[],[]⟩) :
    wp (listArchive net.server lib threadExit processExit 7) (fun _ u => net.Holds u
      ⟨next,out,later,RESPONSE_OK :: listing (((lib.opened archivepath password).entries
        (getFilenameFromFullPath archivepath)).map ls_resp_t.cut),[]⟩) (fun _ _ => False) t := by
  have hreads := (Network.reads_toServer net ⟨next,out,[],[],[]⟩).some
  have hprints : Prints (fun w cs => net.Holds w ⟨next,out,later,cs,[]⟩)
      (listArchiveInternal net.server lib threadExit processExit archivepath password) _ :=
    prints_listArchive (Network.writes_fromServer net ⟨next,out,later,[],[]⟩)
      (server_completes hcomplete ⟨next,out,later,[],[]⟩) hloaded hcreate hopened
  unfold listArchive
  refine (parses_string hreads hpath).before ht fun t ht => ?_
  refine (parses_stringByte hreads hpassword).before ht fun t ht => ?_
  exact hprints t [] ht

/-- The answer to a request for the list of an archive that opens, or of one of a single stream, is a
list with one entry for each item, in order and with names, one terminator and nothing more, just when
no path is missing and no name is cut to nothing. -/
theorem listArchive_parses_iff (hcomplete : net.fromServer.Complete) (hloaded : lib.lib7zLoaded = true)
    (hcreate : lib.createObjectFunc = true) (hpath : archivepath.length < 65536)
    (hpassword : password.length < 256)
    (hopened : ∀ ret errno, lib.opened archivepath password ≠ .error ret errno)
    (ht : net.Holds t ⟨next,out,stringBytes archivepath ++
      ([.ofNat password.length] ++ password ++ later),[],[]⟩) :
    (∃ u es, listArchive net.server lib threadExit processExit 7 t = .ok () u ∧
      net.Holds u ⟨next,out,later,RESPONSE_OK :: listing es,[]⟩ ∧ (∀ e ∈ es, e.Fits) ∧
      List.Forall₂ ls_resp_t.ShownBy
        ((lib.opened archivepath password).entries (getFilenameFromFullPath archivepath)) es) ↔
    (lib.opened archivepath password).Named (getFilenameFromFullPath archivepath) := by
  have hname : (getFilenameFromFullPath archivepath).length < 65536 := by
    unfold getFilenameFromFullPath
    split
    · exact hpath
    · rw [List.length_drop]
      omega
  obtain ⟨_,u,hok,hu⟩ :=
    ok_of_wp (wp_listArchive hcomplete hloaded hcreate hpath hpassword hopened ht)
  rw [← named_entries hname hopened fun _ => isStream_of_opened,← listing_iff (permissions_of_entries _)]
  constructor
  · intro h
    obtain ⟨u',es,hok',hu',hfits,hshown⟩ := h
    rw [hok] at hok'
    cases hok'
    refine ⟨es,hfits,hshown,?_⟩
    exact (List.cons.inj (hu.2.2.2.1.symm.trans hu'.2.2.2.1)).2
  · intro h
    obtain ⟨es,hfits,hshown,heq⟩ := h
    exact ⟨u,es,hok,heq ▸ hu,hfits,hshown⟩

end Exchanged

/-- Every file is a ZIP archive of one item with this path. -/
def oneItem (path : PathProp) : ArchiveLibrary where
  lib7zLoaded := true
  createObjectFunc := true
  fread _ := some [0x50,0x4B,0x03,0x04,0,0,0,0]
  createObject _ := true
  openFile _ := true
  openArchive _ _ _ := some [⟨3,path,none,some false⟩]

/-- The path "/a" and no password. -/
def listRequest : Str := stringBytes [47,97] ++ ([.ofNat ([] : Str).length] ++ [] ++ [])

theorem listArchive_parses_item : ∃ u es,
    listArchive wholeWays.server (oneItem (.VT_BSTR [120])) .threadExit .crash 7
      ⟨[],[],listRequest,[],[]⟩ = .ok () u ∧
    wholeWays.Holds u ⟨[],[],[],RESPONSE_OK :: listing es,[]⟩ ∧ (∀ e ∈ es, e.Fits) ∧
    List.Forall₂ ls_resp_t.ShownBy
      (((oneItem (.VT_BSTR [120])).opened [47,97] []).entries (getFilenameFromFullPath [47,97])) es := by
  refine (listArchive_parses_iff (fun buf s => ⟨s ++ buf,rfl,rfl⟩) rfl rfl (by decide) (by decide)
    (fun _ _ h => ?_) ⟨rfl,rfl,rfl,rfl,rfl⟩).mpr fun item hitem => ?_
  · cases h
  · obtain rfl := List.mem_singleton.mp hitem
    exact .inr (by decide)

/-- An item without a path is sent as a terminator, behind which its other data are left. -/
theorem listArchive_ends_early : ∃ u,
    listArchive wholeWays.server (oneItem .VT_EMPTY) .threadExit .crash 7
      ⟨[],[],listRequest,[],[]⟩ = .ok () u ∧
    u.fromServer = [RESPONSE_OK,0,0] ++ [0,0,0,0] ++ List.replicate 10 45 ++ [3,0,0,0,0,0,0,0] ++ [0,0] ∧
    ¬ ∃ es, (∀ e ∈ es, e.Fits) ∧ es.length = 1 ∧ u.fromServer = RESPONSE_OK :: listing es := by
  obtain ⟨_,u,hrun,hu⟩ := ok_of_wp (@wp_listArchive Stop Str Str Str Str wholeWays (oneItem .VT_EMPTY)
    .threadExit .crash [47,97] [] [] [] [] ⟨[],[],listRequest,[],[]⟩ (fun buf s => ⟨s ++ buf,rfl,rfl⟩)
    rfl rfl (by decide) (by decide) (fun _ _ h => by cases h) ⟨rfl,rfl,rfl,rfl,rfl⟩)
  have hreply : u.fromServer = RESPONSE_OK :: listing
      ([archiveEntry ⟨3,.VT_EMPTY,none,some false⟩].map ls_resp_t.cut) := hu.2.2.2.1
  refine ⟨u,hrun,hreply.trans (by decide),fun hparses => ?_⟩
  obtain ⟨es,hfits,hlen,heq⟩ := hparses
  rw [hreply] at heq
  have hnamed : ∀ i ∈ [archiveEntry ⟨3,.VT_EMPTY,none,some false⟩], i.filename.length % 65536 ≠ 0 :=
    named_of_listing (by simp [length_archiveEntry_permissions]) hfits hlen (List.cons.inj heq).2
  exact hnamed _ List.mem_cons_self rfl

end RootHelper
