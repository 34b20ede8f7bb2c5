import RootHelper.AnswerFrames
import RootHelper.CreateExchange
import RootHelper.UploadRoundTrip

/-!
Where the stream of a remote session stands between its requests: each handler that comes back to the
loop has read all of its request, or it has left some of it to be read as a request.
-/

set_option autoImplicit false

namespace RootHelper
open Posix Control

/-- `bs` is what can be read. -/
def Awaits (k : Conn) (bs : Str) : Prop := k.inp = bs ∧ k.closed = false

/-- `bs` is left, on a connection that may be closed. -/
def Left (k : Conn) (bs : Str) : Prop := k.inp = bs

theorem conn_awaits : connDesc.toSource.Reads Awaits := by
  intro bs k rest h
  obtain ⟨hinp,hopen⟩ := h
  change wp (readAllOrExit bs.length) _ _ k
  unfold readAllOrExit
  simp only [wp_bind,wp_get,wp_ite,wp_pure,wp_set,wp_throw]
  refine ⟨fun h0 => ?_,fun _ => ⟨fun hshort => ?_,fun _ => ?_⟩⟩
  · have hnil : bs = [] := List.length_eq_zero_iff.mp h0
    subst hnil
    exact ⟨rfl,hinp,hopen⟩
  · rw [hinp,List.length_append] at hshort
    simp only [hopen,Bool.false_eq_true,false_or] at hshort
    omega
  · rw [hinp,List.take_left,List.drop_left]
    exact ⟨rfl,rfl,hopen⟩

def Awaiting (u : Transfer) (bs : Str) : Prop := Awaits u.rcl bs

def Remaining (u : Transfer) (bs : Str) : Prop := Left u.rcl bs

theorem network_awaits : networkDesc.toSource.Reads Awaiting := by
  intro bs u rest h
  change wp (Transfer.rclPart.run (connDesc.readAllOrExit bs.length)) _ _ u
  rw [wp_run]
  exact wp_mono (conn_awaits bs u.rcl rest h) (fun _ _ hk => hk) fun _ _ he => he

theorem wp_networkRead {count : Nat} {w : Transfer} {Q : Str → Transfer → Prop}
    {E : Stop → Transfer → Prop}
    (hQ : count ≤ w.rcl.inp.length → Q (w.rcl.inp.take count)
      { w with rcl := { w.rcl with inp := w.rcl.inp.drop count } })
    (hE : ∀ w', w'.disk = w.disk → E .threadExit w') : wp (networkDesc.readAllOrExit count) Q E w := by
  change wp (Transfer.rclPart.run (readAllOrExit count)) Q E w
  rw [wp_run]
  simp only [readAllOrExit,wp_bind,wp_get,wp_ite,wp_pure,wp_set,wp_throw]
  refine ⟨fun hzero => ?_,fun _ => ⟨fun _ => hE _ rfl,fun hopen => ?_⟩⟩
  · subst hzero
    exact hQ (Nat.zero_le _)
  · exact hQ (Nat.le_of_not_lt (not_or.mp hopen).2)

theorem wp_networkString {w : Transfer} {Q : Str → Transfer → Prop} {E : Stop → Transfer → Prop}
    (hQ : ∀ s, nextString w.rcl.inp = some s → Q s
      { w with rcl := { w.rcl with inp := w.rcl.inp.drop (2 + s.length) } })
    (hE : ∀ w', w'.disk = w.disk → E .threadExit w') : wp networkDesc.readStringWithLen Q E w := by
  unfold Source.readStringWithLen Source.readU16
  rw [wp_bind,wp_map]
  refine wp_networkRead (fun htwo => ?_) hE
  have hlong : ¬ w.rcl.inp.length < 2 := Nat.not_lt.mpr htwo
  by_cases hzero : fromLittleEndian (w.rcl.inp.take 2) = 0
  · rw [if_pos hzero]
    exact hQ [] (by rw [nextString,if_neg hlong,if_pos hzero])
  · rw [if_neg hzero]
    refine wp_networkRead (fun hrest => ?_) hE
    have hnext : nextString w.rcl.inp =
        some ((w.rcl.inp.drop 2).take (fromLittleEndian (w.rcl.inp.take 2))) := by
      rw [nextString,if_neg hlong,if_neg hzero,if_neg (Nat.not_lt.mpr hrest)]
    have hread := hQ _ hnext
    rwa [(nextString_length hnext).2,← List.drop_drop] at hread

theorem left_of_told (k k' : Conn) (bs : Str) (h : Awaits k bs) (hk : Told k k') : Left k' bs :=
  hk.1.trans h.1

theorem remaining_of_sameInput (u u' : Transfer) (bs : Str) (h : Awaiting u bs) (hu : SameInput u u') :
    Remaining u' bs := hu.trans h.1

section Handlers

variable {α β : Type}

theorem answered {x : TransferM β} {f : β → TransferM α} {bs : Str} {b : β}
    (hx : Parses Awaiting x bs b) (hf : Moves SameInput (f b)) :
    Consumes Awaiting Remaining (x >>= f) bs := hx.answered remaining_of_sameInput hf

/-- What leaves the connection alone may stand between two reads. -/
theorem beside {x : TransferM α} (hx : Moves SameConn x) : Consumes Awaiting Awaiting x [] := by
  intro u rest h
  refine wp_mono (hx u) (fun _ u' hu => ?_) fun _ _ _ => trivial
  unfold SameConn at hu
  unfold Awaiting
  rw [hu]
  exact h

variable {server : RemoteServer}

theorem consumes_ls {flags : Fin 8} {dirpath : Str} (hlen : dirpath.length < 65536) :
    Consumes Awaiting Remaining (ls server flags) (stringBytes dirpath) := by
  have path := parses_string network_awaits.some hlen
  unfold ls
  split
  · exact answered path
      (moves_listDir sameInput_writeAllOrExit sameInput_write sameInput_close _ _ _ _ _)
  · split
    · exact answered path (moves_retrieveHomePath sameInput_writeAllOrExit _)
    · exact consumes_throw

theorem consumes_download {pathPairs : List (Str × Str)}
    (hpairs : ∀ v ∈ pathPairs, v.1 ≠ [] ∧ v.1.length < 65536 ∧ v.2.length < 65536) :
    Consumes Awaiting Remaining (server_download server.sys) (pathPairsBytes pathPairs) := by
  intro u rest h
  have hturns : pathPairs.length < u.rcl.inp.length + 1 := by
    have hpairs_ne : ∀ v ∈ pathPairs, pairBytes v ≠ [] := fun v _ => by
      simp [pairBytes,littleEndian]
    have hle := length_le_flatMap hpairs_ne
    rw [h.1,List.length_append,pathPairsBytes,List.length_append]
    omega
  have answers : ∀ v : List (Str × Str), Moves SameInput (do
      let depth := u.disk.fs.paths.length+1
      let counts ← Transfer.withDisk (countSelection server.sys depth v ⟨0,0,0⟩ fun _ => ⟨0,0,0⟩)
      networkDesc.writeAllOrExit (.u64 counts.tFiles)
      networkDesc.writeAllOrExit (.u64 counts.tSize)
      sendSelection server.sys depth v
      networkDesc.writeAllOrExit (.u8 0xFF)) := by
    intro v
    refine (SameConn.sameInput (sameConn_withDisk _)).bind fun counts => ?_
    refine (sameInput_writeAllOrExit _).bind fun _ => (sameInput_writeAllOrExit _).bind fun _ => ?_
    exact (sameInput_sendSelection _ _ _).bind fun _ => sameInput_writeAllOrExit _
  unfold server_download
  rw [wp_bind,wp_get]
  exact answered (parses_pathPairs network_awaits hpairs hturns) (answers _) u rest h

theorem consumes_chunks {sys : System} {output : Path × Name} {l : List Nat} {content : Str}
    (hsum : l.sum = content.length) (currentProgress : Nat) :
    Consumes Awaiting Awaiting (downloadChunks sys false output l currentProgress) content := by
  induction l generalizing content currentProgress with
  | nil =>
    have hempty : content = [] := List.length_eq_zero_iff.mp hsum.symm
    subst hempty
    exact (parses_pure ()).consumes fun _ _ hs => hs
  | cons count rest ih =>
    rw [List.sum_cons] at hsum
    have hcount : (content.take count).length = count := by
      rw [List.length_take]
      omega
    have hrest : rest.sum = (content.drop count).length := by
      rw [List.length_drop]
      omega
    rw [← List.take_append_drop count content]
    refine (network_awaits.bytes hcount).thenConsumes ?_
    exact (beside (sameConn_file _)).bind fun _ => (beside (moves_pure _)).bind fun _ => ih hrest _

theorem consumes_abandon {bs : Str} : Consumes Awaiting Awaiting (abandon : TransferM Unit) bs := by
  intro u rest _
  unfold abandon
  simp only [wp_bind,wp_run,close,wp_modify,wp_throw]

theorem sameConn_tell (c : Chunk) : Moves SameConn (tell false c) := moves_pure ()

theorem sameConn_rewind : Moves SameConn Transfer.rewind := moves_modify fun _ => rfl

theorem consumes_file {sys : System} {path content : Str} :
    Consumes Awaiting Awaiting (downloadFile sys false path content.length) content := by
  unfold downloadFile
  refine (beside (sameConn_withDisk _)).skip fun ret => ?_
  split
  · exact consumes_abandon
  · refine (beside (sameConn_withDisk _)).skip fun opened => ?_
    cases opened with
    | error e => exact consumes_abandon
    | ok output =>
      refine (beside sameConn_rewind).skip fun _ => (beside (sameConn_tell _)).skip fun _ => ?_
      exact (consumes_chunks (sum_chunks _) 0).last fun _ => beside (sameConn_tell _)

theorem consumes_item {sys : System} {item : Item} {bs : Str} {turns : Nat}
    (hfits : item.path.length < 65536 ∧ (item.content.getD []).length < 2^64)
    (hrest : Consumes Awaiting Awaiting (downloadItems sys false turns) bs) :
    Consumes Awaiting Awaiting (downloadItems sys false (turns+1)) (item.bytes ++ bs) := by
  unfold Item.bytes
  cases hcontent : item.content with
  | none =>
    refine (parses_dirItem network_awaits.some hfits.1).thenConsumes ?_
    rw [if_neg (by simp),if_neg (by simp),if_pos rfl]
    exact (beside (sameConn_withDisk _)).skip fun _ => hrest
  | some content =>
    have hsize : content.length < 2^64 := by simpa [hcontent] using hfits.2
    rw [List.append_assoc]
    refine (parses_fileHeader network_awaits.some hfits.1 hsize).thenConsumes ?_
    rw [if_neg (by simp),if_pos rfl]
    exact consumes_file.bind fun _ => hrest

theorem consumes_items {sys : System} {items : List Item}
    (hfits : ∀ item ∈ items, item.path.length < 65536 ∧ (item.content.getD []).length < 2^64)
    (turns : Nat) : Consumes Awaiting Awaiting (downloadItems sys false turns)
      (items.flatMap Item.bytes ++ [0xFF]) := by
  induction items generalizing turns with
  | nil =>
    cases turns with
    | zero => exact consumes_throw
    | succ turns =>
      rw [List.flatMap_nil,List.nil_append,← List.append_nil [0xFF]]
      refine (parses_endOfList network_awaits.some).thenConsumes ?_
      rw [if_pos rfl]
      exact beside (moves_pure ())
  | cons item items ih =>
    cases turns with
    | zero => exact consumes_throw
    | succ turns =>
      rw [List.flatMap_cons,List.append_assoc]
      refine consumes_item (hfits item List.mem_cons_self) ?_
      exact ih (fun i hi => hfits i (List.mem_cons_of_mem _ hi)) turns

theorem consumes_upload {sys : System} {totalFiles totalSize : Nat} {items : List Item}
    (hfiles : totalFiles < 2^64) (hsize : totalSize < 2^64)
    (hfits : ∀ item ∈ items, item.path.length < 65536 ∧ (item.content.getD []).length < 2^64) :
    Consumes Awaiting Remaining (downloadRemoteItems sys false) (littleEndian 8 totalFiles ++
      (littleEndian 8 totalSize ++ (items.flatMap Item.bytes ++ [0xFF]))) := by
  refine (parses_u64 network_awaits.some hfiles).thenConsumes ?_
  refine (parses_u64 network_awaits.some hsize).thenConsumes ?_
  refine (beside (sameConn_tell _)).skip fun _ => (beside (sameConn_tell _)).skip fun _ => ?_
  refine (beside moves_get).skip fun u => ?_
  refine (consumes_items hfits _).last fun _ => ?_
  exact fun w rest h => wp_mono (beside (sameConn_tell _) w rest h) (fun _ _ hw => hw.1) fun _ _ he => he

theorem consumes_create {flags : Fin 8} {filepath : Str} {mode : Nat} {options : Option CreateOptions}
    (hfits : (Sent.create filepath mode options).Fits ⟨ACTION_CREATE,flags⟩) :
    ∃ front, (Sent.create filepath mode options).body =
        front ++ unread (server.rhss_checkAccess filepath) options ∧
      Consumes Awaiting Remaining (Transfer.rclPart.run
        (createFileOrDirectory server.creation server.rhss_checkAccess flags)) front := by
  obtain ⟨_,hdir,hmode,hsome,hopts⟩ := hfits
  obtain ⟨bs,hbs,hparse⟩ :=
    parses_creation conn_awaits.some (server.rhss_checkAccess filepath) hsome hopts
  refine ⟨stringBytes filepath ++ (littleEndian 4 mode ++ bs),?_,Consumes.run (L := Transfer.rclPart) ?_⟩
  · rw [Sent.body,hbs]
    simp
  · refine (parses_string conn_awaits.some hdir).thenConsumes ?_
    refine (parses_u32 conn_awaits.some hmode).thenConsumes ?_
    exact hparse.answered left_of_told (told_creation_response server.creation _ _ _)

theorem sameInput_answerLink (flags : Fin 8) (origin link : Str) : Moves SameInput (do
    let ret ← Transfer.withDisk
      (if b1 flags then server.sys.link origin link else server.sys.symlink origin link)
    match ret with
    | .ok _ => networkDesc.sendBaseResponse 0 0
    | .error e => networkDesc.sendBaseResponse (-1) e.code) := by
  refine (SameConn.sameInput (sameConn_withDisk _)).bind fun ret => ?_
  cases ret with
  | ok _ => exact moves_sendBaseResponse sameInput_writeAllOrExit _ _
  | error e => exact moves_sendBaseResponse sameInput_writeAllOrExit _ _

theorem consumes_link {flags : Fin 8} {v : Str × Str} (hfits : (Sent.link v).Fits ⟨ACTION_LINK,flags⟩) :
    Consumes Awaiting Remaining (createHardOrSoftLink server.sys flags) (Sent.link v).body := by
  obtain ⟨_,hfst,hsnd,_⟩ := hfits
  by_cases hv : v.1 = []
  · rw [Sent.body,if_pos hv]
    have len := parses_u16 network_awaits.some (n := 0) (by decide)
    have pair : Parses Awaiting networkDesc.readPairOfStringsWithPairOfLens (littleEndian 4 0) ([],[]) :=
      len.bind (len.bind (parses_pure ([],[])))
    exact answered pair (sameInput_answerLink flags [] [])
  · rw [Sent.body,if_neg hv]
    exact answered (parses_pair network_awaits.some hv ⟨hfst,hsnd⟩ (network_awaits v.2))
      (sameInput_answerLink flags _ _)

theorem consumes_stats {flags : Fin 8} {path : Str} (hlen : path.length < 65536)
    (hflags : b2 flags = true → b0 flags = true ∨ b1 flags = true) :
    ∃ front rest, stringBytes path = front ++ rest ∧
      (rest = [] ↔ b0 flags = true ∨ b1 flags = true) ∧
      Consumes Awaiting Remaining (stats server flags) front := by
  have hstring := parses_string network_awaits.some hlen
  have hne : stringBytes path ≠ [] := by simp [stringBytes,littleEndian]
  cases h0 : b0 flags with
  | true =>
    refine ⟨stringBytes path,[],by simp,by simp,(beside moves_get).skip fun u => ?_⟩
    unfold stats_request
    rw [if_pos h0]
    exact answered (hstring.map _) (moves_stats_file sameInput_writeAllOrExit _ _ _ _)
  | false =>
    cases h1 : b1 flags with
    | true =>
      refine ⟨stringBytes path,[],by simp,by simp,(beside moves_get).skip fun u => ?_⟩
      unfold stats_request
      rw [if_neg (by simp [h0]),if_pos h1]
      exact answered (hstring.map _) (moves_stats_dir sameInput_writeAllOrExit _ _ _ _)
    | false =>
      have h2 : b2 flags = false := by simpa [h0,h1] using hflags
      refine ⟨[],stringBytes path,rfl,by simp [hne],(beside moves_get).skip fun u => ?_⟩
      unfold stats_request
      rw [if_neg (by simp [h0]),if_neg (by simp [h1]),if_neg (by simp [h2])]
      exact answered (parses_pure _) (moves_pure _)

theorem parses_paths {paths : List Str} (hpaths : ∀ path ∈ paths, path ≠ [] ∧ path.length < 65536)
    {turns : Nat} (hturns : paths.length < turns) :
    Parses Awaiting (stats_multiple_request networkDesc.toSource turns)
      (paths.flatMap stringBytes ++ stringBytes []) paths := by
  induction paths generalizing turns with
  | nil =>
    obtain ⟨turns,rfl⟩ := Nat.exists_eq_add_of_lt hturns
    rw [List.flatMap_nil,List.nil_append,← List.append_nil (stringBytes [])]
    exact (parses_string network_awaits.some (by decide)).bind (parses_pure [])
  | cons path paths ih =>
    obtain ⟨turns,rfl⟩ := Nat.exists_eq_succ_of_ne_zero (Nat.ne_of_gt (Nat.zero_lt_of_lt hturns))
    obtain ⟨hne,hlen⟩ := hpaths path List.mem_cons_self
    rw [List.flatMap_cons,List.append_assoc]
    refine (parses_string network_awaits.some hlen).bind ?_
    rw [if_neg hne]
    refine (ih (fun p hp => hpaths p (List.mem_cons_of_mem _ hp)) ?_).last fun paths => path :: paths
    exact Nat.lt_of_succ_lt_succ hturns

theorem consumes_statsMultiple {paths : List Str}
    (hpaths : ∀ path ∈ paths, path ≠ [] ∧ path.length < 65536) :
    Consumes Awaiting Remaining (stats server ((4 : Fin 8) : Nat))
      (paths.flatMap stringBytes ++ stringBytes []) := by
  intro u rest h
  have hturns : paths.length < u.rcl.inp.length + 1 := by
    have hle := length_le_flatMap (l := paths) (f := stringBytes) fun path _ => by
      simp [stringBytes,littleEndian]
    rw [h.1,List.length_append,List.length_append]
    omega
  have hrequest : Parses Awaiting
      (stats_request networkDesc.toSource (u.rcl.inp.length+1) ((4 : Fin 8) : Nat))
      (paths.flatMap stringBytes ++ stringBytes []) (.stats_multiple paths) := by
    unfold stats_request
    rw [if_neg (by decide),if_neg (by decide),if_pos (by decide)]
    exact (parses_paths hpaths hturns).map _
  unfold stats
  rw [wp_bind,wp_get]
  exact answered hrequest (moves_stats_multiple sameInput_writeAllOrExit _ _ _) u rest h

/-- Behind an algorithm that is not known the path stays unread. -/
theorem consumes_hashFile {algorithm dirHashOpts : Byte} {filepath : Str} (hlen : filepath.length < 65536) :
    ∃ front rest, (Sent.hash algorithm dirHashOpts filepath).body = front ++ rest ∧
      (rest = [] ↔ algorithm.toNat < rh_hash_maxAlgoIndex) ∧ Consumes Awaiting Remaining
        (hashFile networkDesc server.hashes server.view server.errno .crash) front := by
  by_cases halgo : algorithm.toNat < rh_hash_maxAlgoIndex
  · refine ⟨_,[],(List.append_nil _).symm,by simp [halgo],?_⟩
    refine answered (parses_hashFile network_awaits.some halgo hlen) ?_
    dsimp only
    cases rh_computeHash_wrapper server.hashes server.view filepath algorithm dirHashOpts with
    | none => exact moves_throw _
    | some digest =>
      refine Moves.ite (moves_sendBaseResponse sameInput_writeAllOrExit _ _) ?_
      exact (moves_sendBaseResponse sameInput_writeAllOrExit _ _).bind
        fun _ => sameInput_writeAllOrExit _
  · have hne : stringBytes filepath ≠ [] := by simp [stringBytes,littleEndian]
    refine ⟨[algorithm] ++ ([dirHashOpts] ++ []),stringBytes filepath,rfl,by simp [hne,halgo],?_⟩
    refine answered (parses_hashFile_unknown network_awaits.some (Nat.le_of_not_lt halgo)) ?_
    exact moves_sendBaseResponse sameInput_writeAllOrExit _ _

/-- Under another code than that for the cursor nothing is done. -/
theorem consumes_other {ao : Nat} (hao : ao < 65536) :
    Consumes Awaiting Remaining other (littleEndian 2 ao) := by
  refine answered (parses_u16 network_awaits.some hao) (Moves.ite ?_ (moves_pure _))
  exact (moves_sendBaseResponse sameInput_writeAllOrExit _ _).bind fun _ => moves_throw _

end Handlers

theorem RemoteRequest.unread_nil_iff {denied : Bool} {options : Option CreateOptions} :
    unread denied options = [] ↔
      ∀ o ∈ options, denied = false ∧ (o.ambiguous = true → o.strings = []) := by
  cases options with
  | none => simp [unread]
  | some o =>
    have hne : o.bytes ≠ [] := by simp [CreateOptions.bytes]
    cases denied <;> simp [unread,hne]

/-- A turn begins with the first byte of a request, on a connection that is open. -/
theorem turn_begins {server : RemoteServer} {u t : Transfer} {bs : Str} (h : Remaining u bs)
    (hturn : tlsServerSessionTurn server u = .ok () t) : Awaiting u bs := by
  refine ⟨h,?_⟩
  by_contra hclosed
  have hexit : wp (tlsServerSessionTurn server) (fun _ _ => False) (fun _ _ => True) u := by
    unfold tlsServerSessionTurn
    rw [wp_bind,wp_map]
    change wp (Transfer.rclPart.run (readAllOrExit 1) >>= _) _ _ u
    simp only [readAllOrExit,wp_bind,wp_run,wp_get,wp_ite,wp_set,wp_throw,wp_pure]
    refine ⟨fun h1 => absurd h1 (by decide),fun _ => ⟨fun _ => trivial,fun hopen => ?_⟩⟩
    exact (hopen (.inl (eq_true_of_ne_false hclosed))).elim
  exact (wp_of_ok hturn).mp hexit

/-- The handler that a request gets reads some of it, and all of it just when it is taken. -/
theorem serve_consumes (server : RemoteServer) {r : RemoteRequest} (hfits : r.Fits) :
    ∃ front rest, r.body = front ++ rest ∧ (rest = [] ↔ r.Taken server) ∧
      Consumes Awaiting Remaining (serve server r.rq) front := by
  have whole : r.Taken server → Consumes Awaiting Remaining (serve server r.rq) r.body →
      ∃ front rest, r.body = front ++ rest ∧ (rest = [] ↔ r.Taken server) ∧
        Consumes Awaiting Remaining (serve server r.rq) front := fun htaken hbody =>
    ⟨r.body,[],(List.append_nil _).symm,iff_of_true rfl htaken,hbody⟩
  cases r with
  | ls flags dirpath => exact whole trivial (consumes_ls hfits)
  | download flags pathPairs => exact whole trivial (consumes_download hfits)
  | upload flags totalFiles totalSize items =>
    exact whole trivial (consumes_upload hfits.1 hfits.2.1 hfits.2.2)
  | create flags filepath mode options =>
    obtain ⟨front,hbody,hfront⟩ := @consumes_create server _ _ _ _ hfits
    exact ⟨front,_,hbody,RemoteRequest.unread_nil_iff,hfront⟩
  | link flags srcDestPaths => exact whole trivial (consumes_link hfits)
  | stats flags path => exact consumes_stats hfits.1 hfits.2
  | statsMultiple paths => exact whole trivial (consumes_statsMultiple hfits)
  | hash flags algorithm dirHashOpts filepath => exact consumes_hashFile hfits
  | other flags ao => exact whole trivial (consumes_other hfits)
  | unknown rq body =>
    refine whole trivial ?_
    have hserve : serve server rq = throw .threadExit := by
      simp only [RemoteRequest.Fits,RemoteRequest.served,List.mem_cons,List.not_mem_nil,or_false,
        not_or] at hfits
      obtain ⟨hls,hdownload,hupload,hcreate,hlink,hstats,hhash,hother⟩ := hfits
      have hupload' : rq.request.val ≠ ACTION_UPLOAD.toNat := fun h => hupload (Fin.ext h)
      rw [serve,if_neg hls,if_neg hdownload,if_neg hupload',if_neg hcreate,if_neg hlink,if_neg hstats,
        if_neg hhash,if_neg hother]
    change Consumes Awaiting Remaining (serve server rq) body
    rw [hserve]
    exact consumes_throw

theorem turn_serves (server : RemoteServer) {r : RemoteRequest} (hfits : r.Fits) :
    Serves Awaiting Remaining tlsServerSessionTurn RemoteRequest.bytes
      (fun server r => r.Taken server) server r := by
  have hrequest := parses_requestType network_awaits.some r.rq
  obtain ⟨front,rest,hbody,htaken,hfront⟩ := serve_consumes server hfits
  have hturn : Consumes Awaiting Remaining (tlsServerSessionTurn server) ([r.rq.byte] ++ front) :=
    hrequest.thenConsumes hfront
  refine ⟨fun u t bs => turn_begins,fun hr => ?_,fun hr => ?_⟩
  · have hrest := htaken.mpr hr
    subst hrest
    rw [List.append_nil] at hbody
    rwa [RemoteRequest.bytes,hbody]
  · refine ⟨[r.rq.byte] ++ front,rest,?_,fun hrest => hr (htaken.mp hrest),hturn⟩
    rw [RemoteRequest.bytes,hbody,List.append_assoc]

/-- Whenever handlers have come back to the loop, the next byte is the first of the next request, just
when every request whose handler comes back is one that is read to its end. -/
theorem remote_boundaries_iff {servers : List RemoteServer} {rs : List RemoteRequest} {tail : Str}
    {w : Transfer} (hservers : servers.length = rs.length) (hfits : ∀ r ∈ rs, r.Fits)
    (hw : w.rcl.inp = rs.flatMap RemoteRequest.bytes ++ tail) :
    (∀ n t, inTurn tlsServerSessionTurn (servers.take n) w = .ok () t →
        t.rcl.inp = (rs.drop n).flatMap RemoteRequest.bytes ++ tail) ↔
      ∀ n t server r, inTurn tlsServerSessionTurn (servers.take (n+1)) w = .ok () t →
        servers[n]? = some server → rs[n]? = some r → r.Taken server := by
  have hserves : List.Forall₂ (Serves Awaiting Remaining tlsServerSessionTurn RemoteRequest.bytes
      fun server r => r.Taken server) servers rs := by
    refine List.forall₂_iff_zip.mpr ⟨hservers,fun {server r} hr => ?_⟩
    exact turn_serves server (hfits r (List.of_mem_zip hr).2)
  exact boundaries_iff (fun _ _ _ hbs hcs => hbs.symm.trans hcs) hserves hw

/-- A server that denies what `denied` has. -/
def guarded (denied : Str → Bool) : RemoteServer where
  sys := .calm
  view := oneLetter
  homePath := [47]
  rhss_checkAccess := denied
  hashes := crcHashes
  creation := fairOutcome
  errno := 2

/-- The file "/a" with three zeros, then what "/x" is. -/
def createThenStats : List RemoteRequest :=
  [.create 3 [47,97] 420 (threeBytes 1 []),.stats 1 [47,120]]

def sessionOf (rs : List RemoteRequest) : Transfer :=
  ⟨⟨emptyHome,[],0,0⟩,0,⟨[],[],none,false⟩,⟨rs.flatMap RemoteRequest.bytes,[],none,false⟩⟩

theorem fits_createThenStats (r : RemoteRequest) (hr : r ∈ createThenStats) : r.Fits := by
  rcases List.mem_pair.mp hr with rfl | rfl
  · refine ⟨rfl,by decide,by decide,by decide,fun o ho => ?_⟩
    obtain rfl := Option.some.inj ho
    exact ⟨by decide,by decide,by decide,by decide⟩
  · exact ⟨by decide,fun _ => .inl rfl⟩

theorem boundaries_of_granted :
    (∃ t, inTurn tlsServerSessionTurn [guarded fun _ => false,guarded fun _ => false]
      (sessionOf createThenStats) = .ok () t) ∧
    ∀ n t, inTurn tlsServerSessionTurn
        ([guarded fun _ => false,guarded fun _ => false].take n) (sessionOf createThenStats) = .ok () t →
      t.rcl.inp = (createThenStats.drop n).flatMap RemoteRequest.bytes ++ [] := by
  refine ⟨?_,?_⟩
  · obtain ⟨_,t,ht,_⟩ := ok_of_wp (by decide +kernel : wp
        (inTurn tlsServerSessionTurn [guarded fun _ => false,guarded fun _ => false])
        (fun _ t => t.rcl.inp = []) (fun _ _ => False) (sessionOf createThenStats))
    exact ⟨t,ht⟩
  · have htaken : ∀ r ∈ createThenStats, r.Taken (guarded fun _ => false) := by
      intro r hr
      rcases List.mem_pair.mp hr with rfl | rfl
      · intro o ho
        obtain rfl := Option.some.inj ho
        exact ⟨rfl,fun h => absurd h (by decide)⟩
      · exact .inl rfl
    have hlen : [guarded fun _ => false,guarded fun _ => false].length = createThenStats.length := rfl
    have hinp : (sessionOf createThenStats).rcl.inp =
        createThenStats.flatMap RemoteRequest.bytes ++ [] := (List.append_nil _).symm
    refine (remote_boundaries_iff hlen fits_createThenStats hinp).mpr fun n t server r _ hserver hr => ?_
    have hguarded : server = guarded fun _ => false := by
      simpa using List.mem_of_getElem? hserver
    rw [hguarded]
    exact htaken r (List.mem_of_getElem? hr)

/-- The options of a denied creation are read as a request. -/
theorem denied_options_run : ¬ ∀ n t,
    inTurn tlsServerSessionTurn ([guarded fun _ => true,guarded fun _ => true].take n)
      (sessionOf createThenStats) = .ok () t →
    t.rcl.inp = (createThenStats.drop n).flatMap RemoteRequest.bytes := by
  intro h
  obtain ⟨_,t,ht,hinp⟩ := ok_of_wp (by decide +kernel : wp
      (inTurn tlsServerSessionTurn [guarded fun _ => true])
      (fun _ t => t.rcl.inp = 1 :: littleEndian 8 3 ++ (RemoteRequest.stats 1 [47,120]).bytes)
      (fun _ _ => False) (sessionOf createThenStats))
  have hnext := h 1 t ht
  rw [hinp] at hnext
  revert hnext
  decide

end RootHelper
