import RootHelper.ArchiveExtraction
import RootHelper.LocalSessions
import RootHelper.Transfer

/-!
One request to extract a list of archives. The destination folder and the latest result of the
library's operations live on from one archive to the next.
-/

set_option autoImplicit false

namespace RootHelper
open Posix Control

def ExtractRequest.testMode (rq : ExtractRequest) : Bool := rq.destFolder.isEmpty

def ExtractRequest.smartCreateDirectory (flags : Nat) (rq : ExtractRequest) : Bool :=
  ! b0 flags && rq.currentEntries.isEmpty && ! rq.testMode

def lastExtSeparator (s : Str) : Option Nat :=
  (s.reverse.findIdx? (· = dot)).map (s.length - 1 - ·)

/-- The name without its extension; only a path with a slash has one. -/
def filenameWithoutExtension (filepath : Str) : Option Str :=
  (lastSlash filepath).map fun last =>
    let out := filepath.drop (last+1)
    match lastExtSeparator out with
    | none => out
    | some last => out.take last

def intermediate : Str := text ['i','n','t','e','r','m','e','d','i','a','t','e']

def kOK : Int := 0

abbrev DelayedSymLink := Str × Str

/-- The results its operations have set one after the other, and the links left for the end. -/
structure Extraction where
  operationResults : List Int
  delayedSymLinks : List DelayedSymLink
  result : HRESULT

/-- What is in a file depends on the file system. `Extract` is also told the archive's type and place,
the password and the entries, none for all of them. -/
structure Extractor where
  unset : UInt32
  library : FileSystem → ArchiveLibrary
  archiveHandler : FileSystem → ArchiveType → Str → Str → IInArchive
  Find : Disk → WStr → Option Bool
  Extract : CArchiveExtractCallback → ArchiveType → Str → Str → Option (List Nat) → Bool →
    DiskM Extraction
  Create : DelayedSymLink → DiskM Bool

def SetOperationResult (latestExtractResult operationResult : Int) : Int :=
  if latestExtractResult = kOK ∧ operationResult ≠ kOK then operationResult else latestExtractResult

def SetFinalAttribs (Create : DelayedSymLink → DiskM Bool) : List DelayedSymLink → DiskM HRESULT
  | [] => pure .S_OK
  | link :: links => do
    let created ← Create link
    let result ← SetFinalAttribs Create links
    pure (if created then result else .E_FAIL)

def ArchiveLibrary.checkForSingleItem (lib : ArchiveLibrary) (archivepath password : Str) : Int :=
  match lib.opened archivepath password with
  | .error ret _ => ret
  | .stream _ => 1
  | .items items => singleItem [] items

/-- One byte of OK comes before `failed` and `extracted`, and the progress. -/
inductive ExtractReply where
  | refused (errno : Int)
  | failed (errno : Int)
  | extracted
  deriving DecidableEq, Repr

/-- What the loop takes along. -/
structure ExtractState where
  destFolder : Str
  latestExtractResult : Int
  deriving DecidableEq, Repr

def ExtractRequest.start (rq : ExtractRequest) : ExtractState := ⟨rq.destFolder,kOK⟩

section Loop

variable (sys : System) (x : Extractor) (flags : Nat) (rq : ExtractRequest)

def openForExtract (lib : ArchiveLibrary) (srcArchive : Str) : Except Int ArchiveType :=
  let archiveType := detectArchiveType (lib.fread srcArchive)
  if archiveType = .UNKNOWN then .error 23458
  else if ¬ lib.createObject archiveType then .error 23459
  else if ¬ lib.openFile srcArchive then .error EACCES
  else if (lib.openArchive archiveType srcArchive rq.password).isNone then
    .error NULL_OR_WRONG_PASSWORD
  else .ok archiveType

def subfolder (lib : ArchiveLibrary) (srcArchive : Str) : Except Int Str :=
  if rq.smartCreateDirectory flags then
    let ret := lib.checkForSingleItem srcArchive rq.password
    if ret ≠ 1 ∧ ret ≠ 2 then .error Errno.EINVAL.code
    else if ret = 2 then .ok (slash :: (filenameWithoutExtension srcArchive).getD intermediate)
    else .ok []
  else .ok []

/-- What comes before the destination folder is made, and which it is. -/
def destinationFor (lib : ArchiveLibrary) (srcArchive destFolder : Str) :
    Except Int (ArchiveType × Str) := do
  let archiveType ← openForExtract rq lib srcArchive
  let sub ← subfolder flags rq lib srcArchive
  pure (archiveType,destFolder ++ sub)

def makeDestination (destFolder : Str) : DiskM Int :=
  if rq.testMode then pure 0 else mkpathCopyPermissionsFromNearestAncestor sys destFolder true

def extractCallback (archive : IInArchive) (archiveType : ArchiveType) (srcArchive destFolder : Str) :
    CArchiveExtractCallback :=
  .Init x.unset archive destFolder rq.subDirLengthForPathTruncateInWideChars
    (if archiveType.isStream then
      UTF8_to_wchar x.unset
        (getVirtualInnerNameForStreamArchive (getFilenameFromFullPath srcArchive) archiveType)
    else []) x.Find

def finalResult (e : Extraction) : DiskM HRESULT :=
  if e.result = .S_OK ∧ ¬ rq.testMode then SetFinalAttribs x.Create e.delayedSymLinks
  else pure e.result

def extractInto (archive : IInArchive) (archiveType : ArchiveType) (srcArchive destFolder : Str)
    (latestExtractResult : Int) : DiskM (ExtractReply × Int) := do
  let cb := extractCallback x rq archive archiveType srcArchive destFolder
  let indices := if rq.currentEntries.isEmpty then none else some rq.currentEntries
  let e ← x.Extract cb archiveType srcArchive rq.password indices rq.testMode
  let latestExtractResult := e.operationResults.foldl SetOperationResult latestExtractResult
  if latestExtractResult ≠ kOK then pure (.failed latestExtractResult,0)
  else do
    let result ← finalResult x rq e
    if result ≠ .S_OK then pure (.failed NULL_OR_WRONG_PASSWORD,latestExtractResult)
    else pure (.extracted,latestExtractResult)

/-- Once the folder is known. Where it cannot be made it stays as it is. -/
def extractAt (archive : IInArchive) (archiveType : ArchiveType) (srcArchive destFolder : Str)
    (latestExtractResult : Int) : DiskM (ExtractReply × ExtractState) := do
  let ret ← makeDestination sys rq destFolder
  if ret < 0 then pure (.refused EACCES,⟨destFolder,latestExtractResult⟩)
  else do
    let (reply,latestExtractResult) ←
      extractInto x rq archive archiveType srcArchive destFolder latestExtractResult
    pure (reply,⟨if rq.smartCreateDirectory flags then rq.destFolder else destFolder,latestExtractResult⟩)

def extractArchive (srcArchive : Str) (s : ExtractState) : DiskM (ExtractReply × ExtractState) := do
  let fs := (← get).fs
  match destinationFor flags rq (x.library fs) srcArchive s.destFolder with
  | .error errno => pure (.refused errno,s)
  | .ok (archiveType,destFolder) =>
    let archive := x.archiveHandler fs archiveType srcArchive rq.password
    extractAt sys x flags rq archive archiveType srcArchive destFolder s.latestExtractResult

def extractLoop : List Str → ExtractState → DiskM (List ExtractReply × ExtractState)
  | [], s => pure ([],s)
  | srcArchive :: f, s => do
    let (reply,s) ← extractArchive sys x flags rq srcArchive s
    let (replies,s) ← extractLoop f s
    pure (reply :: replies,s)

/-- What `extractFromArchive` does with a request that has been read: a reply for each archive. -/
def extractArchives : DiskM (List ExtractReply) := do
  let (replies,_) ← extractLoop sys x flags rq rq.f rq.start
  pure replies

end Loop

section Isolation

variable (sys : System) (x : Extractor) (flags : Nat) (rq : ExtractRequest)

/-- The archives of `before` are done with, and the loop goes on from `s`. -/
def Arrives (before : List Str) (d : Disk) (s : ExtractState) (d' : Disk) : Prop :=
  ∃ replies, extractLoop sys x flags rq before rq.start d = .ok (replies,s) d'

def reported {α : Type} (m : DiskM α) (d : Disk) : Except Stop α :=
  match m d with
  | .ok a _ => .ok a
  | .error e _ => .error e

def ExtractRequest.alone (srcArchive : Str) : ExtractRequest := { rq with f := [srcArchive] }

/-- As in a request that has no other archive: the same folder and the same reply. -/
def AsAlone (srcArchive : Str) (s : ExtractState) (d : Disk) : Prop :=
  destinationFor flags rq (x.library d.fs) srcArchive s.destFolder =
      destinationFor flags (rq.alone srcArchive) (x.library d.fs) srcArchive
        (rq.alone srcArchive).start.destFolder ∧
    reported (do
      let (reply,_) ← extractArchive sys x flags rq srcArchive s
      pure [reply]) d = reported (extractArchives sys x flags (rq.alone srcArchive)) d

/-- Whatever happened to the archives before it, each fares as it does alone. -/
def Isolated (d : Disk) : Prop :=
  ∀ before srcArchive after, rq.f = before ++ srcArchive :: after →
    ∀ s d', Arrives sys x flags rq before d s d' → AsAlone sys x flags rq srcArchive s d'

def ReachesDestination (srcArchive : Str) (fs : FileSystem) : Prop :=
  ∃ found, destinationFor flags rq (x.library fs) srcArchive rq.destFolder = .ok found

/-- There is to be a folder of its own below the destination, and it cannot be made. -/
def SubfolderRefused (srcArchive : Str) (d : Disk) : Prop :=
  ∃ archiveType sub, sub ≠ [] ∧
    destinationFor flags rq (x.library d.fs) srcArchive rq.destFolder =
      .ok (archiveType,rq.destFolder ++ sub) ∧
    ∃ ret d', makeDestination sys rq (rq.destFolder ++ sub) d = .ok ret d' ∧ ret < 0

/-- An archive reaches its destination after one whose own folder was refused. -/
def StrayFolder (d : Disk) : Prop :=
  ∃ before refused between srcArchive after,
    rq.f = before ++ refused :: (between ++ srcArchive :: after) ∧
    (∃ s d', Arrives sys x flags rq before d s d' ∧ SubfolderRefused sys x flags rq refused d') ∧
    ∃ s d', Arrives sys x flags rq (before ++ refused :: between) d s d' ∧
      ReachesDestination x flags rq srcArchive d'.fs

end Isolation

section Steps

variable {sys : System} {x : Extractor} {flags : Nat} {rq : ExtractRequest} {srcArchive : Str}
  {s s' : ExtractState} {d d' : Disk}

theorem destinationFor_eq (lib : ArchiveLibrary) (srcArchive destFolder : Str) :
    destinationFor flags rq lib srcArchive destFolder =
      (openForExtract rq lib srcArchive >>= fun archiveType =>
        (subfolder flags rq lib srcArchive).map fun sub => (archiveType,destFolder ++ sub)) := by
  unfold destinationFor
  cases openForExtract rq lib srcArchive with
  | error e => rfl
  | ok archiveType => cases subfolder flags rq lib srcArchive <;> rfl

theorem destinationFor_cases (lib : ArchiveLibrary) (srcArchive : Str) :
    (∃ errno, ∀ destFolder, destinationFor flags rq lib srcArchive destFolder = .error errno) ∨
    ∃ archiveType sub, (sub ≠ [] → rq.smartCreateDirectory flags = true) ∧
      ∀ destFolder, destinationFor flags rq lib srcArchive destFolder =
        .ok (archiveType,destFolder ++ sub) := by
  simp only [destinationFor_eq]
  cases openForExtract rq lib srcArchive with
  | error e => exact .inl ⟨e,fun _ => rfl⟩
  | ok archiveType =>
    cases hsub : subfolder flags rq lib srcArchive with
    | error e => exact .inl ⟨e,fun _ => rfl⟩
    | ok sub =>
      refine .inr ⟨archiveType,sub,fun hne => ?_,fun _ => rfl⟩
      unfold subfolder at hsub
      split_ifs at hsub with hsmart
      · exact hsmart
      · exact absurd (Except.ok.inj hsub).symm hne

theorem extractArchive_error {errno : Int}
    (h : destinationFor flags rq (x.library d.fs) srcArchive s.destFolder = .error errno) :
    extractArchive sys x flags rq srcArchive s d = .ok (.refused errno,s) d := by
  change (match destinationFor flags rq (x.library d.fs) srcArchive s.destFolder with
    | .error errno => pure (.refused errno,s)
    | .ok (archiveType,destFolder) =>
      extractAt sys x flags rq (x.archiveHandler d.fs archiveType srcArchive rq.password) archiveType
        srcArchive destFolder s.latestExtractResult :
        DiskM (ExtractReply × ExtractState)) d = _
  rw [h]
  rfl

theorem extractArchive_ok {archiveType : ArchiveType} {destFolder : Str}
    (h : destinationFor flags rq (x.library d.fs) srcArchive s.destFolder = .ok (archiveType,destFolder)) :
    extractArchive sys x flags rq srcArchive s d =
      extractAt sys x flags rq (x.archiveHandler d.fs archiveType srcArchive rq.password) archiveType
        srcArchive destFolder s.latestExtractResult d := by
  change (match destinationFor flags rq (x.library d.fs) srcArchive s.destFolder with
    | .error errno => pure (.refused errno,s)
    | .ok (archiveType,destFolder) =>
      extractAt sys x flags rq (x.archiveHandler d.fs archiveType srcArchive rq.password) archiveType
        srcArchive destFolder s.latestExtractResult :
        DiskM (ExtractReply × ExtractState)) d = _
  rw [h]

theorem extractInto_latest {archive : IInArchive} {archiveType : ArchiveType} {destFolder : Str} {latest : Int}
    {r : ExtractReply × Int}
    (h : extractInto x rq archive archiveType srcArchive destFolder latest d = .ok r d') : r.2 = kOK := by
  unfold extractInto at h
  obtain ⟨e,d₁,_,h⟩ := ok_of_run_bind h
  simp only at h
  split_ifs at h with hlatest
  · cases h
    rfl
  · obtain ⟨result,d₃,_,h⟩ := ok_of_run_bind h
    split_ifs at h <;> cases h <;> exact not_not.mp hlatest

theorem extractAt_cases {archive : IInArchive} {archiveType : ArchiveType} {destFolder : Str} {latest : Int}
    {reply : ExtractReply}
    (h : extractAt sys x flags rq archive archiveType srcArchive destFolder latest d = .ok (reply,s') d') :
    ∃ ret d₁, makeDestination sys rq destFolder d = .ok ret d₁ ∧
      (ret < 0 ∧ s' = ⟨destFolder,latest⟩ ∨
        ¬ ret < 0 ∧ s' = ⟨if rq.smartCreateDirectory flags then rq.destFolder else destFolder,kOK⟩) := by
  unfold extractAt at h
  obtain ⟨ret,d₁,hret,h⟩ := ok_of_run_bind h
  refine ⟨ret,d₁,hret,?_⟩
  by_cases hneg : ret < 0
  · rw [if_pos hneg] at h
    cases h
    exact .inl ⟨hneg,rfl⟩
  · rw [if_neg hneg] at h
    obtain ⟨⟨reply',latest'⟩,d₂,hinto,h⟩ := ok_of_run_bind h
    have hlatest : latest' = kOK := extractInto_latest hinto
    cases h
    exact .inr ⟨hneg,by rw [hlatest]⟩

theorem extractArchive_start {reply : ExtractReply}
    (h : extractArchive sys x flags rq srcArchive rq.start d = .ok (reply,s') d') :
    s' = rq.start ∨ SubfolderRefused sys x flags rq srcArchive d := by
  rcases @destinationFor_cases flags rq (x.library d.fs) srcArchive with
    ⟨errno,herr⟩ | ⟨archiveType,sub,hsmart,hok⟩
  · rw [extractArchive_error (herr _)] at h
    cases h
    exact .inl rfl
  · rw [extractArchive_ok (hok _)] at h
    by_cases hsub : sub = []
    · subst hsub
      obtain ⟨ret,d₁,_,⟨_,rfl⟩ | ⟨_,rfl⟩⟩ := extractAt_cases h
      · exact .inl (by simp [ExtractRequest.start])
      · exact .inl (by simp [ExtractRequest.start])
    · obtain ⟨ret,d₁,hret,⟨hneg,rfl⟩ | ⟨_,rfl⟩⟩ := extractAt_cases h
      · exact .inr ⟨archiveType,sub,hsub,hok _,ret,d₁,hret,hneg⟩
      · exact .inl (by simp [hsmart hsub,ExtractRequest.start])

theorem extractArchive_latest {reply : ExtractReply} (hs : s.latestExtractResult = kOK)
    (h : extractArchive sys x flags rq srcArchive s d = .ok (reply,s') d') :
    s'.latestExtractResult = kOK := by
  rcases @destinationFor_cases flags rq (x.library d.fs) srcArchive with
    ⟨errno,herr⟩ | ⟨archiveType,sub,_,hok⟩
  · rw [extractArchive_error (herr _)] at h
    cases h
    exact hs
  · rw [extractArchive_ok (hok _)] at h
    obtain ⟨_,_,_,⟨_,rfl⟩ | ⟨_,rfl⟩⟩ := extractAt_cases h
    · exact hs
    · rfl

theorem extractLoop_latest {l : List Str} {replies : List ExtractReply}
    (hs : s.latestExtractResult = kOK)
    (h : extractLoop sys x flags rq l s d = .ok (replies,s') d') : s'.latestExtractResult = kOK := by
  induction l generalizing s d replies with
  | nil =>
    cases h
    exact hs
  | cons a l ih =>
    obtain ⟨⟨reply,s₁⟩,d₁,harchive,h⟩ := ok_of_run_bind h
    obtain ⟨⟨replies₂,s₂⟩,d₂,hrest,h⟩ := ok_of_run_bind h
    cases h
    exact ih (extractArchive_latest hs harchive) hrest

theorem SubfolderRefused.stays {reply : ExtractReply}
    (hrefused : SubfolderRefused sys x flags rq srcArchive d) (hs : s.destFolder = rq.destFolder)
    (h : extractArchive sys x flags rq srcArchive s d = .ok (reply,s') d') :
    s'.destFolder ≠ rq.destFolder := by
  obtain ⟨archiveType,sub,hsub,hdest,ret,d₁,hret,hneg⟩ := hrefused
  rw [← hs] at hdest
  rw [extractArchive_ok hdest,hs] at h
  obtain ⟨ret',d₂,hret',⟨_,rfl⟩ | ⟨hpos,_⟩⟩ := extractAt_cases h
  · simpa using hsub
  · rw [hret] at hret'
    cases hret'
    exact absurd hneg hpos

theorem AsAlone.destFolder (h : AsAlone sys x flags rq srcArchive s d)
    (hreaches : ReachesDestination x flags rq srcArchive d.fs) : s.destFolder = rq.destFolder := by
  have hdest : destinationFor flags rq (x.library d.fs) srcArchive s.destFolder =
      destinationFor flags rq (x.library d.fs) srcArchive rq.destFolder := h.1
  obtain ⟨found,hfound⟩ := hreaches
  rcases @destinationFor_cases flags rq (x.library d.fs) srcArchive with
    ⟨errno,herr⟩ | ⟨archiveType,sub,_,hok⟩
  · rw [herr] at hfound
    cases hfound
  · rw [hok,hok] at hdest
    simpa using hdest

theorem extractArchive_short {reply : ExtractReply}
    (hshort : ¬ ReachesDestination x flags rq srcArchive d.fs)
    (h : extractArchive sys x flags rq srcArchive s d = .ok (reply,s') d') : s' = s := by
  rcases @destinationFor_cases flags rq (x.library d.fs) srcArchive with
    ⟨errno,herr⟩ | ⟨archiveType,sub,_,hok⟩
  · rw [extractArchive_error (herr _)] at h
    cases h
    rfl
  · exact absurd ⟨_,hok _⟩ hshort

theorem reported_single :
    reported (extractArchives sys x flags (rq.alone srcArchive)) d =
      reported (do
        let (reply,_) ← extractArchive sys x flags rq srcArchive rq.start
        pure [reply]) d := by
  have hrun : extractArchives sys x flags (rq.alone srcArchive) = (do
      let (replies,_) ← extractLoop sys x flags rq [srcArchive] rq.start
      pure replies) := rfl
  rw [hrun]
  unfold extractLoop extractLoop reported
  simp only [bind_assoc,pure_bind]

theorem asAlone_short
    (hshort : s = rq.start ∨ ¬ ReachesDestination x flags rq srcArchive d.fs) :
    AsAlone sys x flags rq srcArchive s d := by
  unfold AsAlone
  rw [reported_single]
  rcases hshort with rfl | hshort
  · exact ⟨rfl,rfl⟩
  · rcases @destinationFor_cases flags rq (x.library d.fs) srcArchive with
      ⟨errno,herr⟩ | ⟨archiveType,sub,_,hok⟩
    · refine ⟨(herr _).trans (herr _).symm,?_⟩
      have hrefused (t : ExtractState) : reported (do
          let (reply,_) ← extractArchive sys x flags rq srcArchive t
          pure [reply]) d = .ok [.refused errno] := by
        unfold reported
        rw [run_bind_ok (extractArchive_error (herr t.destFolder))]
        rfl
      rw [hrefused,hrefused]
    · exact absurd ⟨_,hok _⟩ hshort

theorem extractLoop_concat {l : List Str} {replies : List ExtractReply}
    (h : extractLoop sys x flags rq (l ++ [srcArchive]) s d = .ok (replies,s') d') :
    ∃ replies₁ s₁ d₁ reply, extractLoop sys x flags rq l s d = .ok (replies₁,s₁) d₁ ∧
      extractArchive sys x flags rq srcArchive s₁ d₁ = .ok (reply,s') d' := by
  induction l generalizing s d replies with
  | nil =>
    obtain ⟨⟨reply,s₁⟩,d₁,harchive,h⟩ := ok_of_run_bind h
    obtain ⟨⟨replies₂,s₂⟩,d₂,hnil,h⟩ := ok_of_run_bind h
    cases hnil
    cases h
    exact ⟨[],s,d,reply,rfl,harchive⟩
  | cons a l ih =>
    obtain ⟨⟨reply,s₁⟩,d₁,harchive,h⟩ := ok_of_run_bind h
    obtain ⟨⟨replies₂,s₂⟩,d₂,hrest,h⟩ := ok_of_run_bind h
    cases h
    obtain ⟨replies₃,s₃,d₃,reply₃,hloop,hlast⟩ := ih hrest
    refine ⟨reply :: replies₃,s₃,d₃,reply₃,?_,hlast⟩
    rw [extractLoop,run_bind_ok harchive]
    change (_ >>= _ : DiskM _) d₁ = _
    rw [run_bind_ok hloop]
    rfl

end Steps

section Runs

variable {sys : System} {x : Extractor} {flags : Nat} {rq : ExtractRequest} {srcArchive : Str}
  {s : ExtractState} {d d' : Disk}

theorem Arrives.nil (h : Arrives sys x flags rq [] d s d') : s = rq.start := by
  obtain ⟨replies,h⟩ := h
  cases h
  rfl

theorem Arrives.concat {before : List Str} (h : Arrives sys x flags rq (before ++ [srcArchive]) d s d') :
    ∃ s₁ d₁ reply, Arrives sys x flags rq before d s₁ d₁ ∧
      extractArchive sys x flags rq srcArchive s₁ d₁ = .ok (reply,s) d' := by
  obtain ⟨replies,h⟩ := h
  obtain ⟨replies₁,s₁,d₁,reply,hloop,hlast⟩ := extractLoop_concat h
  exact ⟨s₁,d₁,reply,⟨replies₁,hloop⟩,hlast⟩

theorem Arrives.start_or_refused {before : List Str} (h : Arrives sys x flags rq before d s d') :
    s = rq.start ∨ ∃ earlier refused between, before = earlier ++ refused :: between ∧
      ∃ s₁ d₁, Arrives sys x flags rq earlier d s₁ d₁ ∧ SubfolderRefused sys x flags rq refused d₁ := by
  induction before using List.reverseRecOn generalizing s d' with
  | nil => exact .inl h.nil
  | append_singleton before a ih =>
    obtain ⟨s₁,d₁,reply,hbefore,harchive⟩ := h.concat
    rcases ih hbefore with rfl | ⟨earlier,refused,between,rfl,hrefused⟩
    · rcases extractArchive_start harchive with rfl | hrefused
      · exact .inl rfl
      · exact .inr ⟨before,a,[],rfl,rq.start,d₁,hbefore,hrefused⟩
    · exact .inr ⟨earlier,refused,between ++ [a],by simp,hrefused⟩

theorem Arrives.stray {before between after : List Str} {refused : Str} {s₁ : ExtractState}
    {d₁ : Disk} (hisolated : Isolated sys x flags rq d)
    (hf : rq.f = before ++ refused :: (between ++ after))
    (hbefore : Arrives sys x flags rq before d s₁ d₁) (hrefused : SubfolderRefused sys x flags rq refused d₁)
    (h : Arrives sys x flags rq (before ++ refused :: between) d s d') :
    s.destFolder ≠ rq.destFolder := by
  induction between using List.reverseRecOn generalizing s d' after with
  | nil =>
    obtain ⟨s₂,d₂,reply,harrives,harchive⟩ := h.concat
    obtain ⟨replies,hloop⟩ := hbefore
    obtain ⟨replies',hloop'⟩ := harrives
    rw [hloop] at hloop'
    cases hloop'
    obtain ⟨archiveType,sub,hsub,hdest,_⟩ := id hrefused
    have halone := hisolated before refused after (by simpa using hf) s₁ d₁ ⟨_,hloop⟩
    exact hrefused.stays (halone.destFolder ⟨_,hdest⟩) harchive
  | append_singleton between a ih =>
    have hsplit : before ++ refused :: (between ++ [a]) = (before ++ refused :: between) ++ [a] := by
      simp
    rw [hsplit] at h
    obtain ⟨s₂,d₂,reply,harrives,harchive⟩ := h.concat
    have hf' : rq.f = before ++ refused :: (between ++ a :: after) := by simpa using hf
    have hstray : s₂.destFolder ≠ rq.destFolder := ih hf' harrives
    have halone := hisolated (before ++ refused :: between) a after (by simpa using hf)
      s₂ d₂ harrives
    have hshort : ¬ ReachesDestination x flags rq a d₂.fs := fun hreaches =>
      hstray (halone.destFolder hreaches)
    rw [extractArchive_short hshort harchive]
    exact hstray

end Runs

theorem extractArchives_isolated_iff (sys : System) (x : Extractor) (flags : Nat) (rq : ExtractRequest)
    (d : Disk) : Isolated sys x flags rq d ↔ ¬ StrayFolder sys x flags rq d := by
  constructor
  · rintro hisolated ⟨before,refused,between,srcArchive,after,hf,
      ⟨s₁,d₁,hbefore,hrefused⟩,s,d',harrives,hreaches⟩
    have hstray := Arrives.stray hisolated hf hbefore hrefused harrives
    have halone := hisolated (before ++ refused :: between) srcArchive after
      (by simpa using hf) s d' harrives
    exact hstray (halone.destFolder hreaches)
  · intro hcalm before srcArchive after hf s d' harrives
    refine asAlone_short ?_
    rcases harrives.start_or_refused with hstart | ⟨earlier,refused,between,rfl,hrefused⟩
    · exact .inl hstart
    · refine .inr fun hreaches => hcalm ⟨earlier,refused,between,srcArchive,after,
        by simpa using hf,hrefused,s,d',harrives,hreaches⟩

/-- Every file is a ZIP archive of two files, and extracting it does nothing. -/
def twoItems : Extractor where
  unset := 0
  library _ :=
    { lib7zLoaded := true
      createObjectFunc := true
      fread := fun _ => some [0x50,0x4B,0x03,0x04,0,0,0,0]
      createObject := fun _ => true
      openFile := fun _ => true
      openArchive := fun _ _ _ => some [⟨0,.VT_BSTR [112],none,none⟩,⟨0,.VT_BSTR [113],none,none⟩] }
  archiveHandler _ _ _ _ _ _ := .ok .VT_EMPTY
  Find _ _ := some false
  Extract _ _ _ _ _ _ := pure ⟨[kOK,kOK],[],.S_OK⟩
  Create _ := pure true

/-- `/d/x.z` and `/d/y.z` into `/d`. -/
def twoArchives : ExtractRequest :=
  ⟨[text ['/','d','/','x','.','z'],text ['/','d','/','y','.','z']],text ['/','d'],[],[],0⟩

/-- In `/d` there is a file `x`. -/
def takenName : Disk :=
  ⟨.ofEntries [([],.dir 0o755),([text ['d']],.dir 0o755),
    ([text ['d'],text ['x']],.file [] 0o644)] (by decide),[],0,0⟩

/-- The second archive is to go to `/d/x/y`. -/
theorem extractArchives_strays : ¬ Isolated .calm twoItems 0 twoArchives takenName := by
  intro hisolated
  have hrun : wp (extractLoop .calm twoItems 0 twoArchives [text ['/','d','/','x','.','z']]
      twoArchives.start) (fun r _ => r = ([.refused EACCES],⟨text ['/','d','/','x'],kOK⟩))
      (fun _ _ => False) takenName := by decide +kernel
  obtain ⟨r,d',hloop,rfl⟩ := ok_of_wp hrun
  have halone := (hisolated [text ['/','d','/','x','.','z']]
    (text ['/','d','/','y','.','z']) [] rfl _ d' ⟨_,hloop⟩).1
  have hdest : (.ok (.ZIP,text ['/','d','/','x','/','y']) : Except Int (ArchiveType × Str)) =
      .ok (.ZIP,text ['/','d','/','y']) := halone
  exact absurd hdest (by decide)

end RootHelper
