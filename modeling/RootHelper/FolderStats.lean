import RootHelper.DirIterators
import RootHelper.Posix.Answers
import RootHelper.Sessions
import RootHelper.Creation
import RootHelper.Utils

/-!
Metadata of files and directories for a remote client: what the server's handlers collect and
answer, and how the client's proxy passes the answer on.
-/

set_option autoImplicit false

namespace RootHelper
open Posix Control

namespace Metadata

variable (v : View)

/-- One letter of a permission string, if the bit is set. -/
def letter (st_mode bit : Nat) (b : Char) : Byte := if st_mode.testBit bit then .ofNat b.toNat else 45

/-- The bytes that are written and where, in this order. The letter of a link moves `i` twice. -/
def permissionWrites (pathname : Str) (st : Stat) : List (Nat × Byte) :=
  let (first,i) : Char × Nat := match st.kind with
    | .link => (if (v.stat pathname).any fun st => st.kind = .dir then 'L' else 'l',2)
    | .dir => ('d',1)
    | .file => ('-',1)
  [(0,.ofNat first.toNat),(i,letter st.mode 8 'r'),(i+1,letter st.mode 7 'w'),(i+2,letter st.mode 6 'x'),
    (i+3,letter st.mode 5 'r'),(i+4,letter st.mode 4 'w'),(i+5,letter st.mode 3 'x'),
    (i+6,letter st.mode 2 'r'),(i+7,letter st.mode 1 'w'),(i+8,letter st.mode 0 'x')]

/-- The field of ten bytes, all zero before. What is written behind it does not show here. -/
def getPermissions (pathname : Str) (st : Stat) : Str :=
  (permissionWrites v pathname st).foldl (fun output w => output.set w.1 w.2) (List.replicate 10 0)

@[simp] theorem length_getPermissions (pathname : Str) (st : Stat) :
    (getPermissions v pathname st).length = 10 := by
  simp [getPermissions,permissionWrites]

def getUsernameByUid (uid : Nat) : Str := (v.username uid).getD []

def osStat (filepath : Str) : Option singleStats_resp_t :=
  (v.lstat filepath).map fun osSt => {
    group := getUsernameByUid v osSt.gid
    owner := getUsernameByUid v osSt.uid
    creationTime := .ofInt osSt.ctime
    lastAccessTime := .ofInt osSt.atime
    modificationTime := .ofInt osSt.mtime
    permissions := getPermissions v filepath osSt
    size := osSt.size }

theorem permissions_of_osStat {filepath : Str} {r : singleStats_resp_t}
    (h : osStat v filepath = some r) : r.permissions.length = 10 := by
  obtain ⟨st,_,rfl⟩ := Option.map_eq_some_iff.mp h
  exact length_getPermissions v filepath st

def existsIsFileIsDir_ (filepath : Str) : Efd × Option singleStats_resp_t :=
  match osStat v filepath with
  | none => (.none,none)
  | some resp => (if resp.permissions.head? = some 100 then .dir else .file,some resp)

theorem existsIsFileIsDir_none {filepath : Str} :
    (existsIsFileIsDir_ v filepath).1 = .none ↔ v.lstat filepath = none := by
  unfold existsIsFileIsDir_ osStat
  cases v.lstat filepath with
  | none => simp
  | some st =>
    simp only [Option.map_some]
    split_ifs <;> simp

/-- Of a file or a link; that of a directory counts as 0. -/
def osGetSize (a : Answers) (filepath : Str) : UInt64 :=
  match a.lstat filepath with
  | none => 0
  | some osSt => if osSt.kind = .dir then 0 else osSt.size

end Metadata

section Server

variable (v : View)

def forEach {β : Type} (dirIt : Option readdirIterator) (body : Current → β → β) (b : β) : β :=
  match dirIt with
  | none => b
  | some it => readdirIterator.loop v body it b

def accumulateChildrenFilesAndFoldersCount (path : Str) (resp : folderStats_resp_t) :
    Int × folderStats_resp_t :=
  let dirIt := readdirIterator.createIterator v path .FULL .PLAIN false false
  forEach v dirIt (fun i (ret,resp) =>
    match (Metadata.existsIsFileIsDir_ v i.current).1 with
    | .none => (-1,resp)
    | .dir => (ret,{ resp with childrenDirs := resp.childrenDirs + 1 })
    | .file => (ret,{ resp with childrenFiles := resp.childrenFiles + 1 })) (0,resp)

def accumulateTotalFilesAndFoldersCount (path : Str) (resp : folderStats_resp_t) :
    Int × folderStats_resp_t :=
  let dirIt :=
    readdirIterator.createIterator v path .FULL .RECURSIVE_FOLLOW_SYMLINKS false false
  forEach v dirIt (fun i (ret,resp) =>
    match Metadata.existsIsFileIsDir_ v i.current with
    | (.none,_) => (-1,resp)
    | (.dir,_) => (ret,{ resp with totalDirs := resp.totalDirs + 1 })
    | (.file,st) => (ret,{ resp with
        totalFiles := resp.totalFiles + 1
        totalSize := resp.totalSize + (st.elim 0 fun st => st.size) })) (0,resp)

/-- Both counts; the result is -1 if one of them has it. -/
def accumulateCounts (dirpath : Str) (ret : Int) (resp : folderStats_resp_t) :
    Int × folderStats_resp_t :=
  let (ret₁,resp) := accumulateChildrenFilesAndFoldersCount v dirpath resp
  let (ret₂,resp) := accumulateTotalFilesAndFoldersCount v dirpath resp
  (if ret₁ ≠ 0 ∨ ret₂ ≠ 0 then -1 else ret,resp)

variable {ε σ : Type} (inOutDesc : Sink ε σ) (rhss_checkAccess : Str → Bool) (errno : Nat)

/-- `errno` is what the system leaves there when it fails. -/
def stats_file (filepath : Str) : EStateM ε σ Unit :=
  if rhss_checkAccess filepath then inOutDesc.sendBaseResponse (-1) EPERM
  else
    match Metadata.osStat v filepath with
    | none => inOutDesc.sendBaseResponse (-1) errno
    | some resp => do
      inOutDesc.sendBaseResponse 0 0
      inOutDesc.writesingleStats_resp resp

def stats_dir (dirpath : Str) : EStateM ε σ Unit :=
  if rhss_checkAccess dirpath then inOutDesc.sendBaseResponse (-1) EPERM
  else do
    let (ret,resp) := accumulateCounts v dirpath 0 ⟨0,0,0,0,0⟩
    inOutDesc.sendBaseResponse ret errno
    inOutDesc.writefolderStats_resp resp

def stats_multiple (paths : List Str) : EStateM ε σ Unit := do
  let (ret,resp) := paths.foldl (fun (ret,resp) dirpath =>
    match (Metadata.existsIsFileIsDir_ v dirpath).1 with
    | .file => (ret,{ resp with
        childrenFiles := resp.childrenFiles + 1
        totalFiles := resp.totalFiles + 1
        totalSize := resp.totalSize + Metadata.osGetSize v.answers dirpath })
    | .dir => accumulateCounts v dirpath ret resp
    | .none => (-1,resp)) ((0 : Int),⟨0,0,0,0,0⟩)
  inOutDesc.sendBaseResponse ret errno
  inOutDesc.writefolderStats_resp resp

end Server

section Both

variable {ε σ : Type}

/-- One turn of the server's loop that finds such a request; a list of paths is read in at most
`turns` turns. -/
def serveStats (inOutDesc : Desc ε σ) (v : View) (rhss_checkAccess : Str → Bool)
    (errno turns : Nat) : EStateM ε σ Unit := do
  let rq ← request_type.ofByte <$> inOutDesc.readU8
  if rq.request = ACTION_STATS then do
    match ← stats_request inOutDesc.toSource turns rq.flags with
    | .stats_file filepath => stats_file v inOutDesc.toSink rhss_checkAccess errno filepath
    | .stats_dir dirpath => stats_dir v inOutDesc.toSink rhss_checkAccess errno dirpath
    | .stats_multiple paths => stats_multiple v inOutDesc.toSink errno paths
    | _ => pure ()
  else throw inOutDesc.diverges

/-- What `client_stats` does once it has sent its request. -/
def client_stats_response (rcl : Source ε σ) (cl : Sink ε σ) (rq : request_type) :
    EStateM ε σ Unit := do
  let resp ← rcl.readU8
  if resp ≠ 0 then do
    let receivedErrno ← rcl.readU32
    cl.writeAllOrExit (.u8 resp)
    cl.writeAllOrExit (.u32 receivedErrno)
  else if b0 rq.flags then do
    let sfstats ← rcl.readsingleStats_resp
    cl.writeAllOrExit (.u8 resp)
    cl.writesingleStats_resp sfstats
  else if b1 rq.flags then do
    let fldstats ← rcl.readfolderStats_resp
    cl.writeAllOrExit (.u8 resp)
    cl.writefolderStats_resp fldstats
  else if b2 rq.flags then cl.sendBaseResponse (-1) 0x1234
  else pure ()

end Both

section Counts

variable {v : View} {path : Str} {resp : folderStats_resp_t}

theorem foldl_ret {β : Type} {body : Current → Int × β → Int × β} {bad : Current → Prop}
    [DecidablePred bad] (hbody : ∀ i r, (body i r).1 = if bad i then -1 else r.1) (l : List Current)
    (r : Int × β) : (l.foldl (fun r i => body i r) r).1 = if ∃ i ∈ l, bad i then -1 else r.1 := by
  induction l generalizing r with
  | nil => simp
  | cons i l ih =>
    rw [List.foldl_cons,ih,hbody]
    by_cases hl : ∃ i ∈ l, bad i
    · simp [hl]
    · by_cases hi : bad i <;> simp [hl,hi]

def Unstatted (v : View) (dirIt : Option readdirIterator) : Prop :=
  ∃ it ∈ dirIt, ∃ e ∈ it.entries v, v.lstat e.1 = none

theorem forEach_ret {β : Type} {dirIt : Option readdirIterator}
    {body : Current → Int × β → Int × β} (hroot : ∀ it ∈ dirIt, it.rootLen = 0)
    (hbody : ∀ i r, (body i r).1 = if v.lstat i.current = none then -1 else r.1) {b : β} :
    (forEach v dirIt body (0,b)).1 ≠ 0 ↔ Unstatted v dirIt := by
  unfold forEach Unstatted
  cases dirIt with
  | none => simp
  | some it =>
    change (readdirIterator.loop v body it (0,b)).1 ≠ 0 ↔ _
    rw [readdirIterator.loop_eq,foldl_ret hbody]
    have hitem : ∀ e : Str × Name, (it.item v e).current = e.1 := fun e => by
      simp [readdirIterator.item,hroot it rfl]
    simp only [readdirIterator.items,List.mem_map,exists_exists_and_eq_and,hitem,Option.mem_some_iff,
      exists_eq_left']
    split_ifs with h <;> simp [h]

/-- The directory is listed, and something met below it cannot be looked at. -/
def SomeUnstatted (v : View) (dirpath : Str) : Prop := absolute dirpath ∧ ∃ path name,
  readdirIterator.Met v .RECURSIVE_FOLLOW_SYMLINKS false dirpath path name ∧ v.lstat path = none

theorem unstatted_iff {recursiveListing : ListingMode} :
    Unstatted v (readdirIterator.createIterator v path .FULL recursiveListing false false) ↔
      absolute path ∧ ∃ p name, readdirIterator.Met v recursiveListing false path p name ∧
        v.lstat p = none := by
  cases hit : readdirIterator.createIterator v path .FULL recursiveListing false false with
  | none =>
    refine iff_of_false (by simp [Unstatted]) ?_
    intro h
    obtain ⟨habs,p,name,hmet,_⟩ := h
    have hsome : (readdirIterator.createIterator v path .FULL recursiveListing false false).isSome :=
      readdirIterator.createIterator_isSome.mpr ⟨habs,hmet.opened⟩
    rw [hit] at hsome
    simp at hsome
  | some it =>
    simp only [Unstatted,Option.mem_some_iff,exists_eq_left',
      (readdirIterator.createIterator_eq_some hit).1,true_and]
    constructor
    · intro h
      obtain ⟨e,he,hstat⟩ := h
      exact ⟨e.1,e.2,(readdirIterator.mem_entries hit).mp he,hstat⟩
    · intro h
      obtain ⟨p,name,hmet,hstat⟩ := h
      exact ⟨(p,name),(readdirIterator.mem_entries hit).mpr hmet,hstat⟩

theorem createIterator_rootLen {recursiveListing : ListingMode} :
    ∀ it ∈ readdirIterator.createIterator v path .FULL recursiveListing false false,
      it.rootLen = 0 := by
  intro it hit
  obtain ⟨_,names,_,rfl⟩ := readdirIterator.createIterator_eq_some hit
  rfl

variable (v path resp) in
theorem children_ret : (accumulateChildrenFilesAndFoldersCount v path resp).1 ≠ 0 ↔
    Unstatted v (readdirIterator.createIterator v path .FULL .PLAIN false false) := by
  refine forEach_ret createIterator_rootLen fun i r => ?_
  simp only [← Metadata.existsIsFileIsDir_none]
  cases hefd : (Metadata.existsIsFileIsDir_ v i.current).1 <;> simp

variable (v path resp) in
theorem total_ret : (accumulateTotalFilesAndFoldersCount v path resp).1 ≠ 0 ↔ Unstatted v
    (readdirIterator.createIterator v path .FULL .RECURSIVE_FOLLOW_SYMLINKS false false) := by
  refine forEach_ret createIterator_rootLen fun i r => ?_
  simp only [← Metadata.existsIsFileIsDir_none]
  obtain ⟨efd,st⟩ := Metadata.existsIsFileIsDir_ v i.current
  cases efd <;> rfl

theorem met_of_plain {p : Str} {name : Name} (h : readdirIterator.Met v .PLAIN false path p name) :
    readdirIterator.Met v .RECURSIVE_FOLLOW_SYMLINKS false path p name := by
  cases h with
  | entry hopen hc hkeep => exact .entry hopen hc hkeep
  | deeper _ hdesc => simp [readdirIterator.descends] at hdesc

variable (v path resp) in
open Classical in
theorem counts_ret : (accumulateCounts v path 0 resp).1 = if SomeUnstatted v path then -1 else 0 := by
  have hchildren := children_ret v path resp
  have htotal := total_ret v path (accumulateChildrenFilesAndFoldersCount v path resp).2
  rw [unstatted_iff] at hchildren htotal
  unfold accumulateCounts
  simp only
  refine if_congr ?_ rfl rfl
  rw [hchildren,htotal,SomeUnstatted]
  constructor
  · intro h
    rcases h with ⟨habs,p,name,hmet,hstat⟩ | h
    · exact ⟨habs,p,name,met_of_plain hmet,hstat⟩
    · exact h
  · exact fun h => .inr h

end Counts

end RootHelper
