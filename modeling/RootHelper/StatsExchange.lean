import RootHelper.FolderStats
import RootHelper.RequestBytes

/-!
When the streams are in step after metadata have been asked for through the proxy.
-/

set_option autoImplicit false

namespace RootHelper
open Posix Control

variable {ε σ : Type}

def errorBytes (errno : Nat) : Str := RESPONSE_ERROR :: littleEndian 4 errno

def singleStats_resp_t.bytes (r : singleStats_resp_t) : Str :=
  [.ofNat r.group.length] ++ (r.group ++
    ([.ofNat r.owner.length] ++ (r.owner ++ (littleEndian 4 r.creationTime.toNat ++
      (littleEndian 4 r.lastAccessTime.toNat ++ (littleEndian 4 r.modificationTime.toNat ++
        (r.permissions ++ littleEndian 8 r.size.toNat)))))))

def folderStats_resp_t.bytes (r : folderStats_resp_t) : Str :=
  littleEndian 8 r.childrenDirs.toNat ++ (littleEndian 8 r.childrenFiles.toNat ++
    (littleEndian 8 r.totalDirs.toNat ++ (littleEndian 8 r.totalFiles.toNat ++
      littleEndian 8 r.totalSize.toNat)))

theorem folderStats_resp_t.bytes_ne_nil (r : folderStats_resp_t) : r.bytes ≠ [] := by
  simp [bytes,littleEndian]

/-- With the names as they are sent, whose lengths have one byte. -/
def singleStats_resp_t.cut (r : singleStats_resp_t) : singleStats_resp_t :=
  { r with
    group := r.group.take (r.group.length % 256)
    owner := r.owner.take (r.owner.length % 256) }

section Answers

variable {snk : Sink ε σ} {at_ : σ → Str → Prop} {v : View} {access : Str → Bool} {errno : Nat}
  {path : Str}

theorem writesingleStats_cut (r : singleStats_resp_t) :
    snk.writesingleStats_resp r.cut = snk.writesingleStats_resp r := by
  have hlen : ∀ s : Str, UInt8.ofNat (s.take (s.length % 256)).length = UInt8.ofNat s.length := by
    intro s
    have hle := Nat.mod_le s.length 256
    rw [List.length_take,Nat.min_eq_left hle]
    exact UInt8.toNat_inj.mp (by simp)
  have htake : ∀ s : Str, (s.take (s.length % 256)).take (UInt8.ofNat s.length).toNat =
      s.take (UInt8.ofNat s.length).toNat := by
    intro s
    rw [List.take_take]
    simp
  simp only [Sink.writesingleStats_resp,singleStats_resp_t.cut,hlen,htake]

theorem singleStats_resp_t.cut_fits {r : singleStats_resp_t} (h : r.permissions.length = 10) :
    r.cut.group.length < 256 ∧ r.cut.owner.length < 256 ∧ r.cut.permissions.length = 10 := by
  have hlen : ∀ s : Str, (s.take (s.length % 256)).length < 256 := by
    intro s
    have hlt := Nat.mod_lt s.length (show 0 < 256 by decide)
    rw [List.length_take]
    omega
  exact ⟨hlen r.group,hlen r.owner,h⟩

theorem prints_error (h : snk.Writes at_) (errno : Nat) :
    Prints at_ (snk.sendBaseResponse (-1) errno) (errorBytes errno) :=
  (h (.u8 RESPONSE_ERROR)).bind fun _ => h (.u32 errno)

/-- What `stats_file` answers. -/
def fileStatsReply (v : View) (access : Str → Bool) (errno : Nat) (filepath : Str) : Str :=
  if access filepath then errorBytes EPERM
  else
    match Metadata.osStat v filepath with
    | none => errorBytes errno
    | some resp => RESPONSE_OK :: resp.cut.bytes

theorem prints_stats_file (h : snk.Writes at_) :
    Prints at_ (stats_file v snk access errno path) (fileStatsReply v access errno path) := by
  unfold stats_file fileStatsReply
  split_ifs
  · exact prints_error h EPERM
  · cases hstat : Metadata.osStat v path with
    | none => exact prints_error h errno
    | some resp =>
      obtain ⟨hgroup,howner,hperm⟩ :=
        singleStats_resp_t.cut_fits (Metadata.permissions_of_osStat v hstat)
      have hok : Prints at_ (snk.sendBaseResponse 0 0) [RESPONSE_OK] := h (.u8 RESPONSE_OK)
      refine hok.bind fun _ => ?_
      rw [← writesingleStats_cut]
      exact prints_singleStats h hgroup howner hperm

open Classical in
/-- What `stats_dir` answers before its counts. -/
noncomputable def dirStatsResponse (v : View) (errno : Nat) (dirpath : Str) : Str :=
  if SomeUnstatted v dirpath then errorBytes errno else [RESPONSE_OK]

/-- The counts of `stats_dir`. -/
def dirCounts (v : View) (dirpath : Str) : folderStats_resp_t :=
  (accumulateCounts v dirpath 0 ⟨0,0,0,0,0⟩).2

theorem prints_stats_dir (h : snk.Writes at_) (hgranted : access path = false) :
    Prints at_ (stats_dir v snk access errno path)
      (dirStatsResponse v errno path ++ (dirCounts v path).bytes) := by
  unfold stats_dir dirStatsResponse dirCounts
  rw [if_neg (by rw [hgranted]; exact Bool.false_ne_true)]
  have hret := counts_ret v path ⟨0,0,0,0,0⟩
  change Prints at_ (snk.sendBaseResponse (accumulateCounts v path 0 ⟨0,0,0,0,0⟩).1 errno >>= _) _
  rw [hret]
  refine Prints.bind ?_ fun _ => prints_folderStats h
  split_ifs
  · exact prints_error h errno
  · exact h (.u8 RESPONSE_OK)

theorem prints_stats_dir_denied (h : snk.Writes at_) (hdenied : access path = true) :
    Prints at_ (stats_dir v snk access errno path) (errorBytes EPERM) := by
  rw [stats_dir,if_pos hdenied]
  exact prints_error h EPERM

end Answers

section Passed

variable {rcl : Source ε σ} {cl : Sink ε σ} {on : σ → Str → Str → Prop} {rq : request_type}

theorem stats_relays_error (h : Relaying rcl cl on) (errno : Nat) :
    Relays on (client_stats_response rcl cl rq) (errorBytes errno) (errorBytes errno) () := by
  have hpass := h.pass_error RESPONSE_ERROR (length_littleEndian 4 errno)
  change Relays on _ ([RESPONSE_ERROR] ++ littleEndian 4 errno) ([] ++ errorBytes errno) ()
  refine (h.u8 RESPONSE_ERROR).bind ?_
  rw [if_pos (by decide)]
  exact hpass

theorem stats_relays_file (h : Relaying rcl cl on) (hflag : b0 rq.flags = true)
    {r : singleStats_resp_t} (hfits : r.group.length < 256 ∧ r.owner.length < 256 ∧
      r.permissions.length = 10) :
    Relays on (client_stats_response rcl cl rq) (RESPONSE_OK :: r.bytes) (RESPONSE_OK :: r.bytes)
      () := by
  obtain ⟨hgroup,howner,hperm⟩ := hfits
  have hread : Relays on rcl.readsingleStats_resp r.bytes [] r := Parses.relays fun out =>
    parses_singleStats (h.reads out) hgroup howner hperm
  have hwrite : Relays on (cl.writesingleStats_resp r) [] r.bytes () := Prints.relays fun inp =>
    prints_singleStats (h.writes inp) hgroup howner hperm
  change Relays on _ ([RESPONSE_OK] ++ r.bytes) ((Chunk.u8 RESPONSE_OK).encode ++ r.bytes) ()
  refine (h.u8 RESPONSE_OK).after ?_
  rw [if_neg (by decide),if_pos hflag]
  exact hread.afterLast ((h.write (.u8 RESPONSE_OK)).then hwrite)

theorem stats_relays_dir (h : Relaying rcl cl on) (hfile : b0 rq.flags = false)
    (hflag : b1 rq.flags = true) (r : folderStats_resp_t) :
    Relays on (client_stats_response rcl cl rq) (RESPONSE_OK :: r.bytes) (RESPONSE_OK :: r.bytes)
      () := by
  have hread : Relays on rcl.readfolderStats_resp r.bytes [] r := Parses.relays fun out =>
    parses_folderStats (h.reads out)
  have hwrite : Relays on (cl.writefolderStats_resp r) [] r.bytes () := Prints.relays fun inp =>
    prints_folderStats (h.writes inp)
  change Relays on _ ([RESPONSE_OK] ++ r.bytes) ((Chunk.u8 RESPONSE_OK).encode ++ r.bytes) ()
  refine (h.u8 RESPONSE_OK).after ?_
  rw [if_neg (by decide),if_neg (by rw [hfile]; exact Bool.false_ne_true),if_pos hflag]
  exact hread.afterLast ((h.write (.u8 RESPONSE_OK)).then hwrite)

end Passed

section Exchanged

variable {α β γ δ : Type} {net : Network ε α β γ δ} {v : View} {access : Str → Bool}
  {errno turns : Nat} {rq : request_type} {dirpath next out buffer : Str} {s : Ways α β γ δ}

theorem wp_client_stats_request (hdir : dirpath.length < 65536)
    (hs : net.Holds s ⟨stringBytes dirpath ++ next,out,[],[],buffer⟩) :
    wp (net.ends.client_stats_request rq)
      (fun _ t => net.Holds t ⟨next,out,rq.byte :: stringBytes dirpath,[],[]⟩)
      (fun _ _ => False) s := by
  unfold Ends.client_stats_request
  refine (parses_string (Network.reads_fromLocal net ⟨[],out,[],[],buffer⟩).some hdir).before hs
    fun t ht => ?_
  rw [wp_bind]
  refine Network.wp_newBuffer _ ht fun t ht => ?_
  have hbuffer := Network.writes_buffer net ⟨next,out,[],[],[]⟩
  refine (hbuffer (.u8 rq.byte)).before ht fun _ t ht => ?_
  refine (prints_string hbuffer hdir).before ht fun _ t ht => ?_
  exact Network.wp_flush _ ht

/-- What the server answers to a request of one of the two kinds. -/
def StatsAnswer (v : View) (access : Str → Bool) (errno : Nat) (rq : request_type)
    (dirpath reply : Str) : Prop :=
  (b0 rq.flags = true ∧ reply = fileStatsReply v access errno dirpath) ∨
    (b0 rq.flags = false ∧ access dirpath = true ∧ reply = errorBytes EPERM) ∨
    (b0 rq.flags = false ∧ access dirpath = false ∧
      reply = dirStatsResponse v errno dirpath ++ (dirCounts v dirpath).bytes)

theorem wp_serveStats (hrq : rq.request = ACTION_STATS)
    (hflags : b0 rq.flags = true ∨ b1 rq.flags = true) (hdir : dirpath.length < 65536)
    {t : Ways α β γ δ} (ht : net.Holds t ⟨next,out,rq.byte :: stringBytes dirpath,[],[]⟩)
    {reply : Str} (hreply : StatsAnswer v access errno rq dirpath reply) :
    wp (serveStats net.inOutDesc v access errno turns)
      (fun _ u => net.Passing next u reply out) (fun _ _ => False) t := by
  have hreads := (Network.reads_toServer net ⟨next,out,[],[],[]⟩).some
  have hwrites := Network.writes_fromServer net ⟨next,out,[],[],[]⟩
  have hpath : rq.byte :: stringBytes dirpath = [rq.byte] ++ (stringBytes dirpath ++ []) := by simp
  rw [hpath] at ht
  unfold serveStats stats_request
  refine (parses_requestType hreads rq).before ht fun t ht => ?_
  rw [if_pos hrq]
  rcases hreply with ⟨hfile,rfl⟩ | ⟨hfile,hdenied,rfl⟩ | ⟨hfile,hgranted,rfl⟩
  · rw [if_pos hfile]
    refine ((parses_string hreads hdir).map Received.stats_file).before ht fun t ht => ?_
    exact prints_stats_file hwrites t [] ht
  · rw [if_neg (by rw [hfile]; exact Bool.false_ne_true),
      if_pos (hflags.resolve_left (by rw [hfile]; exact Bool.false_ne_true))]
    refine ((parses_string hreads hdir).map Received.stats_dir).before ht fun t ht => ?_
    exact prints_stats_dir_denied hwrites hdenied t [] ht
  · rw [if_neg (by rw [hfile]; exact Bool.false_ne_true),
      if_pos (hflags.resolve_left (by rw [hfile]; exact Bool.false_ne_true))]
    refine ((parses_string hreads hdir).map Received.stats_dir).before ht fun t ht => ?_
    exact prints_stats_dir hwrites hgranted t [] ht

theorem exists_stats_exchange (turns : Nat) (hrq : rq.request = ACTION_STATS)
    (hflags : b0 rq.flags = true ∨ b1 rq.flags = true) (hdir : dirpath.length < 65536)
    (hs : net.Holds s ⟨stringBytes dirpath ++ next,out,[],[],buffer⟩) {passed rest : Str}
    (hanswer : StatsAnswer v access errno rq dirpath (passed ++ rest))
    (hrelays : Relays (net.Passing next)
      (client_stats_response net.rcl.toSource net.cl.toSink rq) passed passed ()) :
    ∃ u w, Exchange (net.ends.client_stats_request rq) (serveStats net.inOutDesc v access errno turns)
        (fun _ => client_stats_response net.rcl.toSource net.cl.toSink rq) s u w ∧
      net.Passing next u (passed ++ rest) out ∧ net.Passing next w rest (out ++ passed) := by
  refine exists_exchange (a := ()) ?_ (fun t ht => wp_serveStats hrq hflags hdir ht hanswer) hrelays
  exact wp_mono (wp_client_stats_request hdir hs) (fun _ _ h => ⟨rfl,h⟩) fun _ _ h => h

/-- The streams are in step after a request for metadata, and the local client has got the server's
answer, just when it was not one for a directory that is granted and below which something cannot be
looked at. -/
theorem stats_inStep_iff (hrq : rq.request = ACTION_STATS)
    (hflags : b0 rq.flags = true ∨ b1 rq.flags = true) (hdir : dirpath.length < 65536)
    (hs : net.Holds s ⟨stringBytes dirpath ++ next,out,[],[],buffer⟩) :
    (∃ u w, Exchange (net.ends.client_stats_request rq)
        (serveStats net.inOutDesc v access errno turns)
        (fun _ => client_stats_response net.rcl.toSource net.cl.toSink rq) s u w ∧
      net.InStep next out u w) ↔
    ¬ (b0 rq.flags = false ∧ access dirpath = false ∧ SomeUnstatted v dirpath) := by
  have hrelaying := net.relaying next
  by_cases hbad : b0 rq.flags = false ∧ access dirpath = false ∧ SomeUnstatted v dirpath
  · obtain ⟨hfile,hgranted,hsome⟩ := hbad
    refine iff_of_false ?_ (not_not.mpr ⟨hfile,hgranted,hsome⟩)
    obtain ⟨u,w,hex,hu,hw⟩ := exists_stats_exchange turns hrq hflags hdir hs
      (.inr (.inr ⟨hfile,hgranted,by rw [dirStatsResponse,if_pos hsome]⟩))
      (stats_relays_error hrelaying errno)
    intro h
    obtain ⟨u',w',hex',hstep⟩ := h
    obtain ⟨rfl,rfl⟩ := hex.unique hex'
    exact folderStats_resp_t.bytes_ne_nil _ ((inStep_iff hu hw).mp hstep)
  · refine iff_of_true ?_ hbad
    -- in each other case the proxy passes on all of the answer
    obtain ⟨reply,hreply,hrelays⟩ : ∃ reply, StatsAnswer v access errno rq dirpath reply ∧
        Relays (net.Passing next) (client_stats_response net.rcl.toSource net.cl.toSink rq)
          reply reply () := by
      cases hfile : b0 rq.flags with
      | true =>
        refine ⟨_,.inl ⟨hfile,rfl⟩,?_⟩
        unfold fileStatsReply
        split_ifs
        · exact stats_relays_error hrelaying EPERM
        · cases hstat : Metadata.osStat v dirpath with
          | none => exact stats_relays_error hrelaying errno
          | some resp =>
            exact stats_relays_file hrelaying hfile
              (singleStats_resp_t.cut_fits (Metadata.permissions_of_osStat v hstat))
      | false =>
        cases hdenied : access dirpath with
        | true => exact ⟨_,.inr (.inl ⟨hfile,hdenied,rfl⟩),stats_relays_error hrelaying EPERM⟩
        | false =>
          have hnone : ¬ SomeUnstatted v dirpath := fun hsome => hbad ⟨hfile,hdenied,hsome⟩
          refine ⟨_,.inr (.inr ⟨hfile,hdenied,rfl⟩),?_⟩
          rw [dirStatsResponse,if_neg hnone]
          have hflag := hflags.resolve_left (by rw [hfile]; exact Bool.false_ne_true)
          exact stats_relays_dir hrelaying hfile hflag _
    rw [← List.append_nil reply] at hreply
    obtain ⟨u,w,hex,hu,hw⟩ := exists_stats_exchange turns hrq hflags hdir hs hreply hrelays
    exact ⟨u,w,hex,(inStep_iff hu hw).mpr rfl⟩

end Exchanged

theorem lockedDirectory_short (s : Str) (ns : List Name)
    (h : (if s = [47,100] then some [[120]] else none) = some ns) : s.length < PATH_MAX := by
  split_ifs at h with hs
  rw [hs]
  decide

/-- "/d" lists "x", but "x" cannot be looked at. -/
def lockedDirectory : View where
  lstat s := if s = [47,100] then some ⟨.dir,0o744,0,0,4096,0,0,0⟩ else none
  stat s := if s = [47,100] then some ⟨.dir,0o744,0,0,4096,0,0,0⟩ else none
  opendir s := if s = [47,100] then some [[120]] else none
  openRead _ := none
  username _ := some [114,111,111,116]
  errno _ := 13
  errno_pos _ := by decide
  errno_lt _ := by decide
  short := lockedDirectory_short

def byteWays : Network Stop Str Str Str Str :=
  ⟨ProtocolValue.byteByByte,ProtocolValue.byteByByte,ProtocolValue.byteByByte,ProtocolValue.byteByByte⟩

theorem holds_byteWays (inp : Str) : byteWays.Holds ⟨inp,[],[],[],[]⟩ ⟨inp,[],[],[],[]⟩ :=
  ⟨rfl,rfl,rfl,rfl,rfl⟩

/-- A request for the metadata of one file. -/
def fileStatsRequest : request_type := ⟨ACTION_STATS,1⟩

def dirStatsRequest : request_type := ⟨ACTION_STATS,2⟩

theorem stats_inStep_file : ∃ u w,
    Exchange (byteWays.ends.client_stats_request fileStatsRequest)
      (serveStats byteWays.inOutDesc lockedDirectory (fun _ => false) 13 0)
      (fun _ => client_stats_response byteWays.rcl.toSource byteWays.cl.toSink fileStatsRequest)
      ⟨stringBytes [47,100] ++ [9],[],[],[],[]⟩ u w ∧ byteWays.InStep [9] [] u w :=
  (stats_inStep_iff rfl (.inl (by decide)) (by decide) (holds_byteWays _)).mpr
    fun h => absurd h.1 (by decide)

/-- The counts are left unread by the proxy, which takes them for the answer to the next request. -/
theorem stats_leaves_counts : ∃ u w,
    Exchange (byteWays.ends.client_stats_request dirStatsRequest)
      (serveStats byteWays.inOutDesc lockedDirectory (fun _ => false) 13 0)
      (fun _ => client_stats_response byteWays.rcl.toSource byteWays.cl.toSink dirStatsRequest)
      ⟨stringBytes [47,100],[],[],[],[]⟩ u w ∧
    w.fromServer = List.replicate 40 0 ∧ ¬ byteWays.InStep [] [] u w := by
  have hsome : SomeUnstatted lockedDirectory [47,100] :=
    ⟨rfl,[47,100,47,120],[120],.entry rfl (List.mem_singleton.mpr rfl) rfl,rfl⟩
  have hcounts : dirCounts lockedDirectory [47,100] = ⟨0,0,0,0,0⟩ := by decide +kernel
  have hanswer : StatsAnswer lockedDirectory (fun _ => false) 13 dirStatsRequest [47,100]
      (errorBytes 13 ++ folderStats_resp_t.bytes ⟨0,0,0,0,0⟩) :=
    .inr (.inr ⟨by decide,rfl,by rw [dirStatsResponse,if_pos hsome,hcounts]⟩)
  obtain ⟨u,w,hex,hu,hw⟩ := exists_stats_exchange 0 rfl (.inr (by decide)) (by decide)
    (holds_byteWays (stringBytes [47,100] ++ [])) hanswer
    (stats_relays_error (byteWays.relaying []) 13)
  have hrest : w.fromServer = List.replicate 40 0 := hw.2.2.2.1.trans (by decide)
  refine ⟨u,w,hex,hrest,fun h => ?_⟩
  have hempty : w.fromServer = [] := h.fromServer
  rw [hrest] at hempty
  simp at hempty

end RootHelper
