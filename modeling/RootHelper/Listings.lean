import RootHelper.FolderStats
import RootHelper.RequestBytes

/-!
Listing a directory, or asking for the home directory, through the proxy: what the server answers
goes on to the local client byte for byte, whatever the directory holds and in whatever pieces the
bytes come.
-/

set_option autoImplicit false

namespace RootHelper
open Posix Control

variable {ε σ : Type}

structure ls_resp_t where
  filename : Str
  date : UInt32
  /-- A `char[10]`. -/
  permissions : Str
  size : UInt64
  deriving DecidableEq, Repr

/-- -1 when one of its parts has been written short. A result is compared with a `size_t` at the
integers, as which -1 is not short, and with an `int` at the others. -/
def writels_resp (write : Str → EStateM ε σ Int) (entry : ls_resp_t) : EStateM ε σ Int := do
  let len := entry.filename.length % 65536
  let written ← write (littleEndian 2 len)
  if 0 ≤ written ∧ written < 2 then return -1
  let written ← write (entry.filename.take len)
  if written < len then return -1
  let written ← write (littleEndian 4 entry.date.toNat)
  if 0 ≤ written ∧ written < 4 then return -1
  let written ← write (entry.permissions.take 10)
  if written < 10 then return -1
  let written ← write (littleEndian 8 entry.size.toNat)
  if 0 ≤ written ∧ written < 8 then return -1
  return 0

def assemble_ls_resp_from_filepath (v : View) (filepath nameOnly : Str) : Option ls_resp_t :=
  (v.lstat filepath).map fun st => {
    filename := nameOnly
    date := .ofInt st.mtime
    permissions := Metadata.getPermissions v filepath st
    size := st.size }

/-- The server's end of the connection: its descriptor, and single writes to it. -/
structure ServerEnd (ε σ : Type) where
  desc : Desc ε σ
  write : Str → EStateM ε σ Int
  close : EStateM ε σ Unit

section Server

variable (inOutDesc : ServerEnd ε σ) (v : View) (homePath : Str) (rhss_checkAccess : Str → Bool)
  (errno : Nat)

/-- `while (it.next())`; false when the descriptor has been closed. -/
def sendEntries : Nat → readdirIterator → EStateM ε σ Bool
  | 0, _ => throw inOutDesc.desc.diverges
  | turns+1, it =>
    match it.next v with
    | none => pure true
    | some (i,it) =>
      match assemble_ls_resp_from_filepath v i.current i.currentName with
      | none => sendEntries turns it
      | some responseEntry => do
        let ret ← writels_resp inOutDesc.write responseEntry
        if ret ≠ 0 then do
          inOutDesc.close
          pure false
        else sendEntries turns it

def listDir (path : Str) : EStateM ε σ Unit := do
  let redirectHome := path = []
  let dirpath := if redirectHome then homePath else path
  if rhss_checkAccess dirpath then inOutDesc.desc.sendBaseResponse (-1) EPERM
  else
    match readdirIterator.createIterator v dirpath .FULL .PLAIN false false with
    | none => inOutDesc.desc.sendBaseResponse (-1) errno
    | some it => do
      if redirectHome then do
        inOutDesc.desc.writeAllOrExit (.u8 RESPONSE_REDIRECT)
        inOutDesc.desc.writeStringWithLen homePath
      else inOutDesc.desc.sendBaseResponse 0 0
      if ← sendEntries inOutDesc v ((it.entries v).length + 1) it then
        inOutDesc.desc.writeAllOrExit (.u16 0)
      else pure ()

def retrieveHomePath : EStateM ε σ Unit := do
  inOutDesc.desc.sendBaseResponse 0 0
  inOutDesc.desc.writeStringWithLen homePath

def serveLs : EStateM ε σ Unit := do
  let rq ← request_type.ofByte <$> inOutDesc.desc.readU8
  if rq.request = ACTION_LS ∧ rq.flags = 0 then do
    let dirpath ← inOutDesc.desc.readStringWithLen
    listDir inOutDesc v homePath rhss_checkAccess errno dirpath
  else if rq.request = ACTION_LS ∧ rq.flags = 2 then do
    let _ ← inOutDesc.desc.readStringWithLen
    retrieveHomePath inOutDesc homePath
  else throw inOutDesc.desc.diverges

end Server

section Proxy

variable (rcl : Source ε σ) (cl : Sink ε σ) (threadExit : ε)

/-- Entries are passed on up to the terminator, in at most `turns` turns. -/
def passEntries : Nat → EStateM ε σ Unit
  | 0 => throw rcl.diverges
  | turns+1 => do
    let len ← rcl.readU16
    if len = 0 then cl.writeAllOrExit (.u16 len)
    else do
      let filename ← rcl.readAllOrExit len
      let date ← rcl.readU32
      let permissions ← rcl.readAllOrExit 10
      let size ← rcl.readU64
      cl.writeAllOrExit (.u16 len)
      cl.writeAllOrExit (.bytes filename)
      cl.writeAllOrExit (.u32 date)
      cl.writeAllOrExit (.bytes permissions)
      cl.writeAllOrExit (.u64 size)
      passEntries turns

def client_ls_body (turns : Nat) (rq : request_type) : EStateM ε σ Unit :=
  if rq.flags = 2 then do
    let homepath ← rcl.readStringWithLen
    cl.writeStringWithLen homepath
  else passEntries rcl cl turns

/-- What `client_ls` does once it has sent its request. -/
def client_ls_response (turns : Nat) (rq : request_type) : EStateM ε σ Unit := do
  let resp ← rcl.readU8
  if resp = RESPONSE_ERROR then do
    let receivedErrno ← rcl.readU32
    cl.writeAllOrExit (.u8 resp)
    cl.writeAllOrExit (.u32 receivedErrno)
  else if resp = RESPONSE_REDIRECT then do
    let dirpath ← rcl.readStringWithLen
    cl.writeAllOrExit (.u8 resp)
    cl.writeStringWithLen dirpath
    client_ls_body rcl cl turns rq
  else if resp = RESPONSE_OK then do
    cl.writeAllOrExit (.u8 resp)
    client_ls_body rcl cl turns rq
  else throw threadExit

end Proxy

def ls_resp_t.bytes (e : ls_resp_t) : Str :=
  littleEndian 2 e.filename.length ++ (e.filename ++ (littleEndian 4 e.date.toNat ++
    (e.permissions ++ littleEndian 8 e.size.toNat)))

/-- The length of a name is neither 0 nor cut, and the permissions are all there. -/
def ls_resp_t.Fits (e : ls_resp_t) : Prop :=
  e.filename ≠ [] ∧ e.filename.length < 65536 ∧ e.permissions.length = 10

/-- The answer of `listDir` for these entries. -/
def listing (es : List ls_resp_t) : Str := es.flatMap ls_resp_t.bytes ++ littleEndian 2 0

/-- A string as `writeStringWithLen` sends it. -/
def cutString (s : Str) : Str := s.take (s.length % 65536)

theorem length_cutString (s : Str) : (cutString s).length = s.length % 65536 := by
  rw [cutString,List.length_take]
  exact Nat.min_eq_left (Nat.mod_le _ _)

def ls_resp_t.cut (e : ls_resp_t) : ls_resp_t := { e with filename := cutString e.filename }

theorem ls_resp_t.cut_of_fits {e : ls_resp_t} (h : e.Fits) : e.cut = e := by
  rw [ls_resp_t.cut,cutString,Nat.mod_eq_of_lt h.2.1,List.take_length]

def entryOf (v : View) (i : Current) : Option ls_resp_t :=
  assemble_ls_resp_from_filepath v i.current i.currentName

/-- What a loop over `it` sends. -/
def sent (v : View) (it : readdirIterator) : List ls_resp_t := (it.items v).filterMap (entryOf v)

def listed (v : View) (dirpath : Str) : Option (List ls_resp_t) :=
  (readdirIterator.createIterator v dirpath .FULL .PLAIN false false).map (sent v)

/-- The answer to a request with a path: an error, or a prefix, every entry in order and one
terminator. -/
def lsReply (v : View) (homePath : Str) (access : Str → Bool) (errno : Nat) (rq : request_type)
    (path : Str) : Str :=
  if rq.flags = 2 then RESPONSE_OK :: stringBytes (cutString homePath)
  else
    let dirpath := if path = [] then homePath else path
    if access dirpath then RESPONSE_ERROR :: littleEndian 4 EPERM
    else match listed v dirpath with
      | none => RESPONSE_ERROR :: littleEndian 4 errno
      | some es =>
        (if path = [] then RESPONSE_REDIRECT :: stringBytes (cutString homePath) else [RESPONSE_OK])
          ++ listing es

/-! ### What the server writes -/

def Completes (write : Str → EStateM ε σ Int) (at_ : σ → Str → Prop) : Prop :=
  ∀ buf s cs, at_ s cs →
    wp (write buf) (fun r t => r = buf.length ∧ at_ t (cs ++ buf)) (fun _ _ => False) s

section Writes

variable {write : Str → EStateM ε σ Int} {at_ : σ → Str → Prop} {entry : ls_resp_t} {cs : Str} {s : σ}

theorem Completes.before {α : Type} {f : Int → EStateM ε σ α} {buf : Str} {Q : α → σ → Prop}
    {E : ε → σ → Prop} (h : Completes write at_) (hs : at_ s cs)
    (hf : ∀ t, at_ t (cs ++ buf) → wp (f buf.length) Q E t) : wp (write buf >>= f) Q E s := by
  rw [wp_bind]
  refine wp_mono (h buf s cs hs) (fun r t hr => ?_) fun _ _ h => h.elim
  obtain ⟨rfl,ht⟩ := hr
  exact hf t ht

theorem wp_writels_resp_cut (h : Completes write at_) (hperm : entry.permissions.length = 10)
    (hs : at_ s cs) : wp (writels_resp write entry) (fun r t => r = 0 ∧ at_ t (cs ++ entry.cut.bytes))
      (fun _ _ => False) s := by
  have hlen : (entry.filename.take (entry.filename.length % 65536)).length =
      entry.filename.length % 65536 := length_cutString entry.filename
  unfold writels_resp
  simp only [← hperm,List.take_length]
  refine h.before hs fun t ht => ?_
  rw [if_neg (by simp)]
  refine h.before ht fun t ht => ?_
  rw [if_neg (by rw [hlen]; omega)]
  refine h.before ht fun t ht => ?_
  rw [if_neg (by simp)]
  refine h.before ht fun t ht => ?_
  rw [if_neg (by simp [hperm])]
  refine h.before ht fun t ht => ?_
  rw [if_neg (by simp)]
  refine ⟨rfl,?_⟩
  rw [ls_resp_t.bytes,ls_resp_t.cut]
  simp only [length_cutString]
  rw [cutString]
  simpa only [List.append_assoc] using ht

theorem wp_writels_resp (h : Completes write at_) (hfits : entry.Fits) (hs : at_ s cs) :
    wp (writels_resp write entry) (fun r t => r = 0 ∧ at_ t (cs ++ entry.bytes))
      (fun _ _ => False) s := by
  have hcut := wp_writels_resp_cut h hfits.2.2 hs
  rwa [ls_resp_t.cut_of_fits hfits] at hcut

variable {inOutDesc : ServerEnd ε σ} {v : View} {it : readdirIterator} {turns : Nat}

theorem wp_sendEntries (h : Completes inOutDesc.write at_) (hfits : ∀ e ∈ sent v it, e.Fits)
    (hturns : (it.entries v).length < turns) (hs : at_ s cs) :
    wp (sendEntries inOutDesc v turns it)
      (fun r t => r = true ∧ at_ t (cs ++ (sent v it).flatMap ls_resp_t.bytes))
      (fun _ _ => False) s := by
  induction turns generalizing it cs s with
  | zero => omega
  | succ turns ih =>
    rw [sendEntries]
    rcases readdirIterator.next_cases v it with ⟨hnext,hnone⟩ | ⟨e,it',hnext,hentries,hitems⟩
    · have hsent : sent v it = [] := by rw [sent,readdirIterator.items,hnone]; rfl
      rw [hnext,hsent,List.flatMap_nil,List.append_nil]
      exact ⟨rfl,hs⟩
    · rw [hnext]
      rw [hentries,List.length_cons] at hturns
      rw [sent,hitems] at hfits ⊢
      change wp (match entryOf v (it.item v e) with
        | none => sendEntries inOutDesc v turns it'
        | some responseEntry => _) _ _ s
      cases hentry : entryOf v (it.item v e) with
      | none =>
        rw [List.filterMap_cons_none hentry] at hfits ⊢
        exact ih hfits (by omega) hs
      | some responseEntry =>
        rw [List.filterMap_cons_some hentry] at hfits ⊢
        simp only
        rw [wp_bind]
        refine wp_mono (wp_writels_resp h (hfits _ List.mem_cons_self) hs) (fun r t hr => ?_)
          fun _ _ h => h
        obtain ⟨rfl,ht⟩ := hr
        rw [if_neg (by simp),List.flatMap_cons,← List.append_assoc]
        exact ih (fun e he => hfits e (List.mem_cons_of_mem _ he)) (by omega) ht

end Writes

section Reply

variable {inOutDesc : ServerEnd ε σ} {at_ : σ → Str → Prop} {v : View} {homePath path : Str}
  {access : Str → Bool} {errno : Nat}

theorem prints_cutString {snk : Sink ε σ} (h : snk.Writes at_) (s : Str) :
    Prints at_ (snk.writeStringWithLen s) (stringBytes (cutString s)) := by
  have hlt : (cutString s).length < 65536 := by
    rw [length_cutString]
    exact Nat.mod_lt _ (by decide)
  have hsame : snk.writeStringWithLen (cutString s) = snk.writeStringWithLen s := by
    have htake : (cutString s).take (s.length % 65536) = cutString s := by
      rw [cutString,List.take_take,Nat.min_self]
    simp only [Sink.writeStringWithLen,length_cutString,Nat.mod_mod,htake]
    rfl
  rw [← hsame]
  exact prints_string h hlt

/-- Every name a directory lists is not empty, and its length has two bytes. -/
def NamesFit (v : View) : Prop :=
  ∀ dirpath names, v.opendir dirpath = some names → ∀ c ∈ names, c ≠ [] ∧ c.length < 65536

theorem fits_of_listed (hnames : NamesFit v) {dirpath : Str} {es : List ls_resp_t}
    (h : listed v dirpath = some es) : ∀ e ∈ es, e.Fits := by
  obtain ⟨it,hit,rfl⟩ := Option.map_eq_some_iff.mp h
  intro e he
  obtain ⟨i,hi,hentry⟩ := List.mem_filterMap.mp he
  obtain ⟨d,hd,rfl⟩ := List.mem_map.mp hi
  obtain ⟨st,_,rfl⟩ := Option.map_eq_some_iff.mp hentry
  obtain ⟨_,names,hopen,hmem,_⟩ := ((readdirIterator.mem_entries hit).mp hd).listed
  have hname := hnames _ names hopen d.2 hmem
  exact ⟨hname.1,hname.2,Metadata.length_getPermissions _ _ _⟩

theorem wp_listDir (hwrites : inOutDesc.desc.toSink.Writes at_)
    (hcomplete : Completes inOutDesc.write at_) (hnames : NamesFit v) {rq : request_type}
    (hflags : rq.flags = 0) {s : σ} (hs : at_ s []) :
    wp (listDir inOutDesc v homePath access errno path)
      (fun _ t => at_ t (lsReply v homePath access errno rq path)) (fun _ _ => False) s := by
  have herror : ∀ e : Nat, Prints at_ (inOutDesc.desc.sendBaseResponse (-1) e)
      (RESPONSE_ERROR :: littleEndian 4 e) := fun e =>
    (hwrites (.u8 RESPONSE_ERROR)).bind fun _ => hwrites (.u32 e)
  have hflag : ¬ rq.flags = 2 := by rw [hflags]; decide
  unfold listDir lsReply
  rw [if_neg hflag]
  simp only
  generalize (if path = [] then homePath else path) = dirpath
  by_cases hdenied : access dirpath = true
  · rw [if_pos hdenied,if_pos hdenied]
    exact herror EPERM s [] hs
  · rw [if_neg hdenied,if_neg hdenied]
    cases hit : readdirIterator.createIterator v dirpath .FULL .PLAIN false false with
    | none =>
      simp only [listed,hit,Option.map_none]
      exact herror errno s [] hs
    | some it =>
      have hlisted : listed v dirpath = some (sent v it) := by rw [listed,hit]; rfl
      simp only [hlisted]
      have hbody : Prints at_ (do
          if ← sendEntries inOutDesc v ((it.entries v).length + 1) it then
            inOutDesc.desc.writeAllOrExit (.u16 0)
          else pure ()) (listing (sent v it)) := by
        intro t cs ht
        rw [wp_bind]
        refine wp_mono (wp_sendEntries hcomplete (fits_of_listed hnames hlisted) (Nat.lt_succ_self _)
          ht) (fun r t hr => ?_) fun _ _ h => h
        obtain ⟨rfl,ht⟩ := hr
        rw [if_pos rfl,listing,← List.append_assoc]
        exact hwrites (.u16 0) t _ ht
      have hok : Prints at_ (inOutDesc.desc.sendBaseResponse 0 0) [RESPONSE_OK] :=
        hwrites (.u8 RESPONSE_OK)
      have hredirect : Prints at_ (inOutDesc.desc.writeAllOrExit (.u8 RESPONSE_REDIRECT))
          [RESPONSE_REDIRECT] := hwrites (.u8 RESPONSE_REDIRECT)
      by_cases hpath : path = []
      · rw [if_pos hpath,if_pos hpath]
        exact (hredirect.bind fun _ => (prints_cutString hwrites homePath).bind fun _ => hbody) s [] hs
      · rw [if_neg hpath,if_neg hpath]
        exact (hok.bind fun _ => hbody) s [] hs

theorem wp_retrieveHomePath (hwrites : inOutDesc.desc.toSink.Writes at_) {rq : request_type}
    (hflags : rq.flags = 2) {s : σ} (hs : at_ s []) :
    wp (retrieveHomePath inOutDesc homePath)
      (fun _ t => at_ t (lsReply v homePath access errno rq path)) (fun _ _ => False) s := by
  rw [lsReply,if_pos hflags]
  have hok : Prints at_ (inOutDesc.desc.sendBaseResponse 0 0) [RESPONSE_OK] :=
    hwrites (.u8 RESPONSE_OK)
  exact (hok.bind fun _ => prints_cutString hwrites homePath) s [] hs

end Reply

section Passed

variable {rcl : Source ε σ} {cl : Sink ε σ} {on : σ → Str → Str → Prop} {rq : request_type}
  {threadExit : ε} {turns : Nat}

theorem relays_entries (h : Relaying rcl cl on) {es : List ls_resp_t} (hfits : ∀ e ∈ es, e.Fits)
    (hturns : es.length < turns) :
    Relays on (passEntries rcl cl turns) (listing es) (listing es) () := by
  induction es generalizing turns with
  | nil =>
    obtain ⟨turns,rfl⟩ := Nat.exists_eq_add_of_lt hturns
    have hlen : Relays on rcl.readU16 (littleEndian 2 0) [] 0 := h.u16 (by decide)
    exact hlen.afterLast (h.write (.u16 0))
  | cons e es ih =>
    obtain ⟨hne,hlen,hperm⟩ := hfits e List.mem_cons_self
    have hpos : ¬ e.filename.length = 0 := fun h0 => hne (List.length_eq_zero_iff.mp h0)
    cases turns with
    | zero => simp at hturns
    | succ turns =>
      have hrest := @ih turns (fun e he => hfits e (List.mem_cons_of_mem _ he)) (by simpa using hturns)
      have hsplit : listing (e :: es) = littleEndian 2 e.filename.length ++ (e.filename ++
          (littleEndian 4 e.date.toNat ++ (e.permissions ++
            (littleEndian 8 e.size.toNat ++ listing es)))) := by
        simp [listing,ls_resp_t.bytes]
      rw [hsplit,passEntries]
      refine (h.u16 hlen).after ?_
      rw [if_neg hpos]
      refine (h.bytes rfl).after ((h.u32 e.date.toNat_lt).after ((h.bytes hperm).after
        ((h.u64 e.size.toNat_lt).after ?_)))
      exact (h.write (.u16 e.filename.length)).then ((h.write (.bytes e.filename)).then
        ((h.write (.u32 e.date.toNat)).then ((h.write (.bytes e.permissions)).then
          ((h.write (.u64 e.size.toNat)).then hrest))))

variable {v : View} {homePath path : Str} {access : Str → Bool} {errno : Nat}

theorem relays_home (h : Relaying rcl cl on) (homePath : Str) : Relays on (do
    let homepath ← rcl.readStringWithLen
    cl.writeStringWithLen homepath) (stringBytes (cutString homePath))
      (stringBytes (cutString homePath)) () := by
  have hlt : (cutString homePath).length < 65536 := by
    rw [length_cutString]
    exact Nat.mod_lt _ (by decide)
  exact (h.string hlt).afterLast (h.write_string hlt)

theorem relays_lsReply (h : Relaying rcl cl on) (hnames : NamesFit v)
    (hturns : ∀ es, listed v (if path = [] then homePath else path) = some es → es.length < turns) :
    Relays on (client_ls_response rcl cl threadExit turns rq)
      (lsReply v homePath access errno rq path) (lsReply v homePath access errno rq path) () := by
  have herror : ∀ e : Nat, Relays on (client_ls_response rcl cl threadExit turns rq)
      (RESPONSE_ERROR :: littleEndian 4 e) (RESPONSE_ERROR :: littleEndian 4 e) () := by
    intro e
    have hpass := h.pass_error RESPONSE_ERROR (length_littleEndian 4 e)
    change Relays on _ ([RESPONSE_ERROR] ++ littleEndian 4 e)
      ([] ++ RESPONSE_ERROR :: littleEndian 4 e) ()
    refine (h.u8 RESPONSE_ERROR).bind ?_
    rw [if_pos rfl]
    exact hpass
  -- the body after an OK or a redirect
  have hok : ∀ bs, Relays on (client_ls_body rcl cl turns rq) bs bs () →
      Relays on (client_ls_response rcl cl threadExit turns rq) (RESPONSE_OK :: bs)
        (RESPONSE_OK :: bs) () := by
    intro bs hbody
    change Relays on _ ([RESPONSE_OK] ++ bs) ((Chunk.u8 RESPONSE_OK).encode ++ bs) ()
    refine (h.u8 RESPONSE_OK).after ?_
    rw [if_neg (by decide),if_neg (by decide),if_pos rfl]
    exact (h.write (.u8 RESPONSE_OK)).then hbody
  unfold lsReply
  by_cases hhome : rq.flags = 2
  · rw [if_pos hhome]
    refine hok _ ?_
    rw [client_ls_body,if_pos hhome]
    exact relays_home h homePath
  · rw [if_neg hhome]
    simp only
    generalize (if path = [] then homePath else path) = dirpath at hturns ⊢
    by_cases hdenied : access dirpath = true
    · rw [if_pos hdenied]
      exact herror EPERM
    · rw [if_neg hdenied]
      cases hlisted : listed v dirpath with
      | none => exact herror errno
      | some es =>
        have hbody : Relays on (client_ls_body rcl cl turns rq) (listing es) (listing es) () := by
          rw [client_ls_body,if_neg hhome]
          exact relays_entries h (fits_of_listed hnames hlisted) (hturns es hlisted)
        simp only
        by_cases hpath : path = []
        · rw [if_pos hpath]
          have hlt : (cutString homePath).length < 65536 := by
            rw [length_cutString]
            exact Nat.mod_lt _ (by decide)
          change Relays on _ ([RESPONSE_REDIRECT] ++ (stringBytes (cutString homePath) ++ listing es))
            ((Chunk.u8 RESPONSE_REDIRECT).encode ++ (stringBytes (cutString homePath) ++ listing es)) ()
          refine (h.u8 RESPONSE_REDIRECT).after ?_
          rw [if_neg (by decide),if_pos rfl]
          exact (h.string hlt).after ((h.write (.u8 RESPONSE_REDIRECT)).then
            ((h.write_string hlt).then hbody))
        · rw [if_neg hpath]
          exact hok _ hbody

end Passed

def Transport.Complete (T : Transport ε σ) : Prop :=
  ∀ buf s, ∃ t, T.write buf s = .ok (buf.length : Int) t ∧ T.content t = T.content s ++ buf

section Exchanged

variable {α β γ δ : Type} {net : Network ε α β γ δ} {v : View} {homePath : Str} {access : Str → Bool}
  {errno : Nat} {rq : request_type} {dirpath next out buffer : Str} {s : Ways α β γ δ}
  {threadExit : ε}

def Network.server (net : Network ε α β γ δ) : ServerEnd ε (Ways α β γ δ) where
  desc := net.inOutDesc
  write buf := Ways.fromServerPart.run (net.fromServer.write buf)
  close := Ways.fromServerPart.run net.fromServer.close

theorem server_completes (h : net.fromServer.Complete) (u : UnderWay) :
    Completes net.server.write fun w cs => net.Holds w { u with fromServer := cs } := by
  intro buf w cs hw
  obtain ⟨h₁,h₂,h₃,h₄,h₅⟩ := hw
  obtain ⟨t,hwrite,ht⟩ := h buf (Ways.fromServerPart.get w)
  change wp (Ways.fromServerPart.run (net.fromServer.write buf)) _ _ w
  rw [wp_run,wp_of_ok hwrite]
  exact ⟨rfl,h₁,h₂,h₃,ht.trans (congrArg (· ++ buf) h₄),h₅⟩

theorem wp_client_ls_request (hdir : dirpath.length < 65536)
    (hs : net.Holds s ⟨stringBytes dirpath ++ next,out,[],[],[]⟩) :
    wp (net.ends.client_ls_request rq)
      (fun _ t => net.Holds t ⟨next,out,rq.byte :: stringBytes dirpath,[],[]⟩)
      (fun _ _ => False) s := by
  unfold Ends.client_ls_request
  refine (parses_string (Network.reads_fromLocal net ⟨[],out,[],[],[]⟩).some hdir).before hs
    fun t ht => ?_
  have hbytes : littleEndian 2 (dirpath.length % 65536) ++ dirpath.take (dirpath.length % 65536) =
      stringBytes dirpath := by
    rw [Nat.mod_eq_of_lt hdir,List.take_length]
    rfl
  simp only [hbytes]
  exact Network.writes_toServer net ⟨next,out,[],[],[]⟩ (.bytes (rq.byte :: stringBytes dirpath)) t [] ht

theorem wp_serveLs (hcomplete : net.fromServer.Complete) (hnames : NamesFit v)
    (hrq : rq.request = ACTION_LS) (hflags : rq.flags = 0 ∨ rq.flags = 2)
    (hdir : dirpath.length < 65536) {t : Ways α β γ δ}
    (ht : net.Holds t ⟨next,out,rq.byte :: stringBytes dirpath,[],[]⟩) :
    wp (serveLs net.server v homePath access errno)
      (fun _ u => net.Passing next u (lsReply v homePath access errno rq dirpath) out)
      (fun _ _ => False) t := by
  have hreads := (Network.reads_toServer net ⟨next,out,[],[],[]⟩).some
  have hwrites := Network.writes_fromServer net ⟨next,out,[],[],[]⟩
  have hpath : rq.byte :: stringBytes dirpath = [rq.byte] ++ (stringBytes dirpath ++ []) := by simp
  rw [hpath] at ht
  unfold serveLs
  refine (parses_requestType hreads rq).before ht fun t ht => ?_
  rcases hflags with hflags | hflags
  · rw [if_pos ⟨hrq,hflags⟩]
    refine (parses_string hreads hdir).before ht fun t ht => ?_
    exact wp_listDir hwrites (server_completes hcomplete ⟨next,out,[],[],[]⟩) hnames hflags ht
  · rw [if_neg (fun h => absurd (hflags.symm.trans h.2) (by decide)),if_pos ⟨hrq,hflags⟩]
    refine (parses_string hreads hdir).before ht fun t ht => ?_
    exact @wp_retrieveHomePath ε _ net.server _ v homePath dirpath access errno hwrites rq hflags t ht

/-- What the server answers to a listing or a question for the home path is passed on to the local
client byte for byte, and nothing of it is left; it is `lsReply`. -/
theorem ls_relays (hcomplete : net.fromServer.Complete) (hnames : NamesFit v)
    (hrq : rq.request = ACTION_LS) (hflags : rq.flags = 0 ∨ rq.flags = 2)
    (hdir : dirpath.length < 65536)
    (hs : net.Holds s ⟨stringBytes dirpath ++ next,out,[],[],[]⟩) :
    ∃ n, ∀ turns, n ≤ turns → ∃ u w, Exchange (net.ends.client_ls_request rq)
        (serveLs net.server v homePath access errno)
        (fun _ => client_ls_response net.rcl.toSource net.cl.toSink threadExit turns rq) s u w ∧
      net.fromServer.content u.fromServer = lsReply v homePath access errno rq dirpath ∧
      net.InStep next out u w := by
  obtain ⟨n,hn⟩ : ∃ n, ∀ es, listed v (if dirpath = [] then homePath else dirpath) = some es →
      es.length < n := by
    cases listed v (if dirpath = [] then homePath else dirpath) with
    | none => exact ⟨0,fun es h => by cases h⟩
    | some es =>
      refine ⟨es.length + 1,fun es' h => ?_⟩
      obtain rfl := Option.some.inj h
      exact Nat.lt_succ_self _
  refine ⟨n,fun turns hturns => ?_⟩
  have hrelays : Relays (net.Passing next)
      (client_ls_response net.rcl.toSource net.cl.toSink threadExit turns rq)
      (lsReply v homePath access errno rq dirpath) (lsReply v homePath access errno rq dirpath) () :=
    relays_lsReply (net.relaying next) hnames fun es hes => (hn es hes).trans_le hturns
  have hserve : ∀ t, net.Holds t ⟨next,out,rq.byte :: stringBytes dirpath,[],[]⟩ →
      wp (serveLs net.server v homePath access errno)
        (fun _ u => net.Passing next u (lsReply v homePath access errno rq dirpath ++ []) out)
        (fun _ _ => False) t := fun t ht => by
    rw [List.append_nil]
    exact wp_serveLs hcomplete hnames hrq hflags hdir ht
  have hrequest : wp (net.ends.client_ls_request rq) (fun b t => b = () ∧
      net.Holds t ⟨next,out,rq.byte :: stringBytes dirpath,[],[]⟩) (fun _ _ => False) s :=
    wp_mono (wp_client_ls_request hdir hs) (fun _ _ h => ⟨rfl,h⟩) fun _ _ h => h
  obtain ⟨u,w,hex,hu,hw⟩ := @exists_exchange ε α β γ δ Unit net next out _ _ [] () _ _
    (fun _ => client_ls_response net.rcl.toSource net.cl.toSink threadExit turns rq) s hrequest hserve
    hrelays
  refine ⟨u,w,hex,?_,(inStep_iff hu hw).mpr rfl⟩
  rw [← List.append_nil (lsReply v homePath access errno rq dirpath)]
  exact hu.2.2.2.1

end Exchanged

def smallDirectory : View where
  lstat s := if s = [47,100,47,120] then some ⟨.file,0o644,0,0,3,0,7,0⟩ else none
  stat s := if s = [47,100,47,120] then some ⟨.file,0o644,0,0,3,0,7,0⟩ else none
  opendir s := if s = [47,100] then some [[120]] else none
  openRead _ := none
  username _ := none
  errno _ := 2
  errno_pos := errno_two_pos
  errno_lt := errno_two_lt
  short s ns h := by
    split_ifs at h with hs
    rw [hs]
    decide

def wholeWrites : Transport Stop Str where
  read := ProtocolValue.byteByByte.read
  write buf := do
    modify (· ++ buf)
    pure buf.length
  close := pure ()
  threadExit := .threadExit
  diverges := .diverged
  content s := s
  read_nothing := ProtocolValue.byteByByte.read_nothing
  read_some := ProtocolValue.byteByByte.read_some
  write_nothing s := ⟨s ++ [],rfl,List.append_nil s⟩
  write_some buf s hbuf := ⟨buf.length,s ++ buf,List.length_pos_of_ne_nil hbuf,Nat.le_refl _,rfl,by
    rw [List.take_length]⟩

def wholeWays : Network Stop Str Str Str Str := ⟨wholeWrites,wholeWrites,wholeWrites,wholeWrites⟩

def lsRequest : request_type := ⟨ACTION_LS,0⟩

/-- The home directory "/d" is listed for an empty path. -/
theorem ls_relays_home : ∃ n, ∀ turns, n ≤ turns → ∃ u w,
    Exchange (wholeWays.ends.client_ls_request lsRequest)
      (serveLs wholeWays.server smallDirectory [47,100] (fun _ => false) 2)
      (fun _ => client_ls_response wholeWays.rcl.toSource wholeWays.cl.toSink .threadExit turns lsRequest)
      ⟨stringBytes [] ++ [9],[],[],[],[]⟩ u w ∧
    wholeWays.fromServer.content u.fromServer =
      lsReply smallDirectory [47,100] (fun _ => false) 2 lsRequest [] ∧
    wholeWays.InStep [9] [] u w := by
  refine ls_relays (fun buf s => ⟨s ++ buf,rfl,rfl⟩) (fun s names h c hc => ?_) rfl (.inl rfl)
    (by decide) ⟨rfl,rfl,rfl,rfl,rfl⟩
  have hnames : names = [[120]] := by
    change (if s = [47,100] then some [[120]] else none) = some names at h
    split_ifs at h
    exact (Option.some.inj h).symm
  subst hnames
  obtain rfl := List.mem_singleton.mp hc
  decide

/-- A redirect to the directory, one entry of 25 bytes and the terminator. -/
example : lsReply smallDirectory [47,100] (fun _ => false) 2 lsRequest [] =
    [0x11,2,0,47,100] ++ [1,0,120,7,0,0,0,45,114,119,45,114,45,45,114,45,45,3,0,0,0,0,0,0,0] ++
      [0,0] := by
  decide +kernel

end RootHelper
