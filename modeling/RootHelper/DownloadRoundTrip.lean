import RootHelper.AccessChecks
import RootHelper.ReceivedPaths

/-!
A download from end to end: the client asks for trees of the server through a buffer that empties
itself, the server sends what it has, and the client makes the same trees of it.
-/

set_option autoImplicit false

namespace RootHelper
open Posix Control

/-- Whatever the buffer holds and however the bytes come, they go on the connection in order. -/
theorem autoFlushed_flatten (buffer : Str) (xs : List Str) :
    (autoFlushed buffer xs).flatten = buffer ++ xs.flatten := by
  induction xs generalizing buffer with
  | nil =>
    unfold autoFlushed
    split <;> simp_all
  | cons x xs ih =>
    unfold autoFlushed
    dsimp only
    split <;> simp [ih]

/-- The request is being sent, and this is still to be heard. -/
structure Asking (f : Disk × Nat) (reply : Str) (w : Transfer) (cs : Str) : Prop where
  file : (w.disk,w.offset) = f
  network : Tells reply w.rcl cs
  client : ∃ inp bs, Tells inp w.cl bs

theorem prints_pieces {f : Disk × Nat} {reply : Str} (pieces : List Str) :
    Prints (Asking f reply) (writePieces pieces) pieces.flatten := by
  induction pieces with
  | nil => exact prints_pure ()
  | cons x pieces ih =>
    have first : Prints (Asking f reply) (networkDesc.writeAllOrExit (.bytes x)) x := by
      intro u cs h
      change wp (Transfer.rclPart.run (connDesc.writeAllOrExit (.bytes x))) _ _ u
      rw [wp_run]
      exact wp_mono (conn_writes reply (.bytes x) u.rcl cs h.network) (fun _ k hk => ⟨h.file,hk,h.client⟩)
        fun _ _ h => h
    exact first.bind fun _ => ih

/-- What the request of a download is on the connection. -/
def downloadRequest (v : List (Str × Str)) : Str := UInt8.ofNat ACTION_DOWNLOAD :: pathPairsBytes v

theorem flatten_downloadRequest {v : List (Str × Str)}
    (hlen : ∀ x ∈ v, x.1 ≠ [] ∧ x.1.length < 65536 ∧ x.2.length < 65536) :
    (autoFlushed [] ([UInt8.ofNat ACTION_DOWNLOAD] ::
      (v.map Sink.pathPairRequest ++ [littleEndian 4 0]))).flatten = downloadRequest v := by
  have hpair : ∀ x ∈ v, Sink.pathPairRequest x = pairBytes x := by
    intro x hx
    obtain ⟨_,hfst,hsnd⟩ := hlen x hx
    simp only [Sink.pathPairRequest,pairBytes,Nat.mod_eq_of_lt hfst,Nat.mod_eq_of_lt hsnd,
      List.take_length,List.append_assoc]
  rw [autoFlushed_flatten,downloadRequest,pathPairsBytes]
  simp [List.flatMap_def,List.map_congr_left hpair]

/-- Nothing is sent over the network. -/
def Silent (w w' : Transfer) : Prop := w'.rcl.out = w.rcl.out

instance : Std.Refl Silent := ⟨fun _ => rfl⟩

instance : IsTrans Transfer Silent := ⟨fun _ _ _ h h' => Eq.trans h' h⟩

section Silence

variable {sys : System} {α : Type}

theorem silent_read (count : Nat) : Moves Silent (networkDesc.readAllOrExit count) :=
  (heard_read count).mono fun _ _ h => h.2

theorem silent_string : Moves Silent networkDesc.readStringWithLen := heard_string.mono fun _ _ h => h.2

theorem silent_tell (cl : Bool) (c : Chunk) : Moves Silent (tell cl c) := by
  unfold tell
  split
  · exact Moves.run (L := Transfer.clPart) (told_writeAllOrExit c) fun _ _ _ => rfl
  · exact moves_pure _

theorem silent_disk (x : DiskM α) : Moves Silent (Transfer.withDisk x) :=
  (sameConn_withDisk x).mono fun _ _ h => congrArg Conn.out h

theorem silent_file (x : EStateM Stop (Disk × Nat) α) : Moves Silent (Transfer.filePart.run x) :=
  (sameConn_file x).mono fun _ _ h => congrArg Conn.out h

theorem silent_abandon : Moves Silent (abandon : TransferM α) := by
  have same : Moves Silent (Transfer.rclPart.run close) := moves_modify fun _ => rfl
  exact same.bind fun _ => moves_throw _

theorem silent_chunks (cl : Bool) (output : Path × Name) (l : List Nat) (currentProgress : Nat) :
    Moves Silent (downloadChunks sys cl output l currentProgress) := by
  induction l generalizing currentProgress with
  | nil => exact moves_pure _
  | cons count rest ih =>
    exact (silent_read count).bind fun _ => (silent_file _).bind fun _ =>
      (silent_tell cl _).bind fun _ => ih _

theorem silent_downloadFile (cl : Bool) (filepath : Str) (size : Nat) :
    Moves Silent (downloadFile sys cl filepath size) := by
  refine (silent_disk _).bind fun ret => Moves.ite silent_abandon ?_
  refine (silent_disk _).bind fun opened => ?_
  cases opened with
  | error e => exact silent_abandon
  | ok output =>
    refine Moves.bind (moves_modify fun _ => rfl) fun _ => (silent_tell cl _).bind fun _ => ?_
    exact (silent_chunks cl _ _ _).bind fun _ => silent_tell cl _

theorem silent_item : Moves Silent read_fileitem_sock_t := by
  refine ((silent_read 1).bind fun _ => moves_pure _).bind fun flag => Moves.ite (moves_pure _) ?_
  refine silent_string.bind fun file => Moves.ite ?_ (moves_pure _)
  exact (silent_read 8).map.bind fun _ => moves_pure _

theorem silent_items (cl : Bool) (turns : Nat) : Moves Silent (downloadItems sys cl turns) := by
  induction turns with
  | zero => exact moves_throw _
  | succ turns ih =>
    refine silent_item.bind fun item => Moves.ite (moves_pure _) (Moves.ite ?_ (Moves.ite ?_ silent_abandon))
    · exact (silent_downloadFile cl _ _).bind fun _ => ih
    · exact (silent_disk _).bind fun _ => ih

theorem silent_download (cl : Bool) : Moves Silent (downloadRemoteItems sys cl) := by
  refine (silent_read 8).map.bind fun _ => (silent_read 8).map.bind fun _ => ?_
  refine (silent_tell cl _).bind fun _ => (silent_tell cl _).bind fun _ => moves_get.bind fun s => ?_
  exact (silent_items cl _).bind fun _ => silent_tell cl _

end Silence

/-- A server whose stream goes on with a list of path pairs, and `next` behind it. -/
structure OffersTrees (fs : FileSystem) (v : List (Str × Str)) (next : Str) (u : Transfer) : Prop where
  disk : u.disk.fs = fs
  network : Hears [] u.rcl (pathPairsBytes v ++ next)
  client : ∃ inp bs, Tells inp u.cl bs

/-- A client that is asked for a download by the local one, and will get `reply`. -/
structure Downloads (gs : FileSystem) (v : List (Str × Str)) (reply : Str) (w : Transfer) : Prop where
  disk : w.disk.fs = gs
  client : ∃ out rest, Hears out w.cl (pathPairsBytes v ++ rest)
  network : Hears [] w.rcl reply

section Sides

variable {fs gs : FileSystem} {sys : System} {v : List (Str × Str)}

theorem wp_sendSelection (hread : Readable sys fs) (hv : ∀ x ∈ v, Listed sys.toKernel fs x.1) {depth : Nat}
    (hdepth : fs.paths.length < depth) {cs : Str} {u : Transfer} (h : Uploading fs u cs) :
    wp (sendSelection sys depth v) (fun _ u' => ∃ items, SendsAll sys.toKernel fs v items ∧
      Uploading fs u' (cs ++ items.flatMap Item.bytes)) (fun _ _ => False) u := by
  induction v generalizing cs u with
  | nil => exact ⟨[],.nil,by simpa using h⟩
  | cons x v ih =>
    rw [sendSelection,wp_bind]
    refine wp_mono (wp_upload_source hread (hv x List.mem_cons_self) hdepth h) (fun _ u₁ h₁ => ?_)
      fun _ _ h => h
    obtain ⟨items,hitems,h₁⟩ := h₁
    refine wp_mono (ih (fun y hy => hv y (List.mem_cons_of_mem _ hy)) h₁) (fun _ u₂ h₂ => ?_)
      fun _ _ h => h
    obtain ⟨rest,hrest,h₂⟩ := h₂
    refine ⟨items ++ rest,.cons hitems hrest,?_⟩
    rwa [List.flatMap_append,← List.append_assoc]

/-- What `server_download` does with the pairs it has read. -/
def sendTotalsAndSelection (sys : System) (depth : Nat) (v : List (Str × Str)) : TransferM Unit := do
  let counts ← Transfer.withDisk (countSelection sys depth v ⟨0,0,0⟩ fun _ => ⟨0,0,0⟩)
  networkDesc.writeAllOrExit (.u64 counts.tFiles)
  networkDesc.writeAllOrExit (.u64 counts.tSize)
  sendSelection sys depth v
  networkDesc.writeAllOrExit (.u8 0xFF)

theorem sameInput_selection (depth : Nat) (v : List (Str × Str)) :
    Moves SameInput (sendTotalsAndSelection sys depth v) := by
  refine (SameConn.sameInput (sameConn_withDisk _)).bind fun counts => ?_
  refine (sameInput_writeAllOrExit _).bind fun _ => (sameInput_writeAllOrExit _).bind fun _ => ?_
  exact (sameInput_sendSelection _ _ _).bind fun _ => sameInput_writeAllOrExit _

theorem wp_selection (hread : Readable sys fs) (hv : ∀ x ∈ v, Listed sys.toKernel fs x.1) {depth : Nat}
    (hdepth : fs.paths.length < depth) {u : Transfer} (h : Uploading fs u []) :
    wp (sendTotalsAndSelection sys depth v) (fun _ u' => ∃ items, SendsAll sys.toKernel fs v items ∧
      u'.rcl.bytes = uploadStream items ∧ u'.disk.fs = fs) (fun _ _ => False) u := by
  obtain ⟨f,hf,hfile,hrcl,hcl⟩ := h
  rw [sendTotalsAndSelection,wp_bind,Transfer.withDisk,wp_run]
  have hdisk : u.disk.fs = fs := by rw [← hf,← hfile]
  refine wp_mono (wp_countSelection hread hv hdepth hdisk) (fun counts d₂ h₂ => ?_) fun _ _ h => h
  obtain ⟨hq₂,hcounts⟩ := h₂
  have hup : Uploading fs { u with disk := d₂ } [] :=
    ⟨(d₂,u.offset),hq₂.fs_eq.trans hdisk,rfl,hrcl,hcl⟩
  have hnet := fun c => @prints_uploading fs _ _ _ fun f => @prints_network f c
  refine (hnet _).before hup fun _ u₃ h₃ => (hnet _).before h₃ fun _ u₄ h₄ => ?_
  rw [wp_bind]
  refine wp_mono (wp_sendSelection hread hv hdepth h₄) (fun _ u₅ h₅ => ?_) fun _ _ h => h
  obtain ⟨items,hitems,h₅⟩ := h₅
  refine wp_mono (hnet _ u₅ _ h₅) (fun _ u' h' => ?_) fun _ _ h => h
  obtain ⟨f',hf',hfile',⟨_,hrcl'⟩,_⟩ := h'
  obtain ⟨hfiles,hsize⟩ := hcounts items hitems
  refine ⟨items,hitems,?_,by rw [← hf',← hfile']⟩
  rw [hrcl'.2.2.2,hfiles,hsize]
  simp [uploadStream,Chunk.encode]

theorem wp_server_download (hread : Readable sys fs)
    (hlen : ∀ x ∈ v, x.1 ≠ [] ∧ x.1.length < 65536 ∧ x.2.length < 65536)
    (hv : ∀ x ∈ v, Listed sys.toKernel fs x.1) {next : Str} {u : Transfer} (h : OffersTrees fs v next u) :
    wp (server_download sys) (fun _ u' => ∃ items, SendsAll sys.toKernel fs v items ∧
      u'.rcl.bytes = uploadStream items ∧ u'.rcl.inp = next ∧ u'.disk.fs = fs) (fun _ _ => False) u := by
  obtain ⟨hdisk,hrcl,hcl⟩ := h
  have hreads : networkDesc.toSource.Reads (fun (u : Transfer) (bs : Str) =>
      Hears [] u.rcl bs ∧ u.disk.fs = fs ∧ ∃ inp bs, Tells inp u.cl bs) := fun bs =>
    (conn_reads [] bs).run (L := Transfer.rclPart) fun _ _ h => h
  have hturns : v.length < u.rcl.inp.length + 1 := by
    have hpairs := length_le_flatMap (l := v) (f := pairBytes) fun x _ => by
      simp [pairBytes,littleEndian]
    rw [hrcl]
    simp only [pathPairsBytes,List.length_append]
    omega
  rw [server_download,wp_bind,wp_get,wp_bind]
  refine wp_mono (parses_pathPairs hreads hlen hturns u next ⟨hrcl,hdisk,hcl⟩) (fun v' u₁ h₁ => ?_)
    fun _ _ h => h
  obtain ⟨rfl,hrcl₁,hfs₁,hcl₁⟩ := h₁
  have htold : Tells next u₁.rcl [] := by
    rw [hrcl₁]
    exact ⟨rfl,rfl,rfl,rfl⟩
  have hup : Uploading fs u₁ [] := ⟨(u₁.disk,u₁.offset),hfs₁,rfl,⟨next,htold⟩,hcl₁⟩
  have hdepth : fs.paths.length < u.disk.fs.paths.length + 1 := by rw [hdisk]; omega
  refine wp_mono (wp_and (wp_selection hread hv hdepth hup) (sameInput_selection _ _ u₁))
    (fun _ u' h' => ?_) fun _ _ h => h.1
  obtain ⟨⟨items,hitems,hbytes,hfs⟩,hsame⟩ := h'
  exact ⟨items,hitems,hbytes,by rw [show u'.rcl.inp = _ from hsame,htold.1],hfs⟩

theorem wp_client_download {todo : List (Item × Path)} (hfair : sys.Fair)
    (hperm : ∀ p c m, sys.permits p c m = true)
    (hlen : ∀ x ∈ v, x.1 ≠ [] ∧ x.1.length < 65536 ∧ x.2.length < 65536)
    (hitems : ∀ e ∈ todo, Sendable sys.toKernel gs e) (hapart : (todo.map Prod.snd).Pairwise Apart)
    {rest : Str} {w : Transfer} (h : Downloads gs v (uploadStream (todo.map Prod.fst) ++ rest) w) :
    wp (client_download sys) (fun _ w' => w'.rcl.bytes = downloadRequest v ∧ w'.rcl.inp = rest ∧
      Taken gs todo w'.disk.fs) (fun _ _ => False) w := by
  obtain ⟨hdisk,⟨out,behind,hcl⟩,hrcl⟩ := h
  have hreads : clDesc.toSource.Reads (fun (u : Transfer) (bs : Str) =>
      Hears out u.cl bs ∧ u.disk.fs = gs ∧
        Hears [] u.rcl (uploadStream (todo.map Prod.fst) ++ rest)) := fun bs =>
    (conn_reads out bs).run (L := Transfer.clPart) fun _ _ h => h
  have hturns : v.length < w.cl.inp.length + 1 := by
    have hpairs := length_le_flatMap (l := v) (f := pairBytes) fun x _ => by
      simp [pairBytes,littleEndian]
    rw [hcl]
    simp only [pathPairsBytes,List.length_append]
    omega
  rw [client_download,wp_bind,wp_get,wp_bind]
  refine wp_mono (parses_pathPairs hreads hlen hturns w behind ⟨hcl,hdisk,hrcl⟩) (fun v' w₁ h₁ => ?_)
    fun _ _ h => h
  obtain ⟨rfl,hcl₁,hfs₁,hrcl₁⟩ := h₁
  have hasking : Asking (w₁.disk,w₁.offset) (uploadStream (todo.map Prod.fst) ++ rest) w₁ [] :=
    ⟨rfl,by rw [hrcl₁]; exact ⟨rfl,rfl,rfl,rfl⟩,behind,w₁.cl.bytes,by rw [hcl₁]; exact ⟨rfl,rfl,rfl,rfl⟩⟩
  refine (prints_pieces _).before hasking fun _ w₂ h₂ => ?_
  rw [List.nil_append,flatten_downloadRequest hlen] at h₂
  obtain ⟨hinp,hroom,hopen,hbytes⟩ := h₂.network
  have hlistening : Listening (w₁.disk,w₁.offset) w₂ (uploadStream (todo.map Prod.fst) ++ rest) :=
    ⟨h₂.file,⟨w₂.rcl.out,by rw [Hears,← hinp,← hroom,← hopen]⟩,h₂.client⟩
  have hdown : wp (downloadRemoteItems sys true) _ _ w₂ :=
    wp_downloadRemoteItems hfair hperm hitems hapart hfs₁ hlistening
  refine wp_mono (wp_and hdown (silent_download true w₂)) (fun _ w' h' => ?_) fun _ _ h => h.1
  obtain ⟨⟨f',⟨hfile,⟨_,hrcl'⟩,_⟩,htaken⟩,hsilent⟩ := h'
  refine ⟨?_,by rw [hrcl'],by rw [← hfile] at htaken; exact htaken⟩
  rw [← hbytes,Conn.bytes,Conn.bytes,show w'.rcl.out = w₂.rcl.out from hsilent]

/-- What the server sends for the pairs it reads is the reply from which the client makes, at the
destinations, the trees of the server; each side has read its part of the other's stream and no more. -/
theorem download_recreates_trees {client server : System} (hread : Readable server fs)
    (hsizes : ∀ r content, fs.fileAt r = some content → content.length < 2^64)
    (hfair : client.Fair) (hperm : ∀ p c m, client.permits p c m = true)
    (hlen : ∀ x ∈ v, x.1 ≠ [] ∧ x.1.length < 65536 ∧ x.2.length < 65536)
    (hlisted : ∀ x ∈ v, Listed server.toKernel fs x.1) {places : List Path}
    (hplaced : List.Forall₂ (Placed server.toKernel client.toKernel fs gs) v places)
    (hapart : places.Pairwise Apart) {next : Str} {u : Transfer} (hu : OffersTrees fs v next u) :
    ∃ items u', server_download server u = .ok () u' ∧ u'.rcl.bytes = uploadStream items ∧
      u'.rcl.inp = next ∧ u'.disk.fs = fs ∧
      ∀ (rest : Str) (w : Transfer), Downloads gs v (uploadStream items ++ rest) w →
        ∃ w', client_download client w = .ok () w' ∧ w'.rcl.bytes = downloadRequest v ∧
          w'.rcl.inp = rest ∧
          List.Forall₂ (fun x q => Recreated server.toKernel fs x.1 w'.disk.fs q) v places := by
  obtain ⟨_,u',hrun,items,hitems,hbytes,hnext,hfs⟩ := ok_of_wp (wp_server_download hread hlen hlisted hu)
  obtain ⟨todo,rfl,hplan⟩ := exists_plan hsizes hitems hplaced hapart
  refine ⟨_,u',hrun,hbytes,hnext,hfs,fun rest w hw => ?_⟩
  obtain ⟨_,w',hdown,hrequest,hrest,htaken⟩ :=
    ok_of_wp (wp_client_download hfair hperm hlen hplan.sendable hplan.apart hw)
  refine ⟨w',hdown,hrequest,hrest,?_⟩
  have hassigned := hplan.assigned
  rw [List.forall₂_iff_get] at hassigned hplaced ⊢
  exact ⟨hplaced.1,fun i hi hi' => htaken.recreated hread.noLinks (hplaced.2 i hi hi').leads.free
    (hassigned.2 i hi hi')⟩

end Sides

/-- A server that has the small tree is asked for its only directory. -/
def serves : Transfer :=
  ⟨⟨smallTree,[],0,0⟩,0,⟨[],[],none,false⟩,
    ⟨pathPairsBytes [(text ['/','a'],text ['/','d','/','n'])],[],none,false⟩⟩

theorem download_recreates_smallTree :
    ∃ items u', server_download .calm serves = .ok () u' ∧ u'.rcl.bytes = uploadStream items ∧
      u'.rcl.inp = [] ∧ u'.disk.fs = smallTree ∧
      ∀ (rest : Str) (w : Transfer),
        Downloads emptyHome [(text ['/','a'],text ['/','d','/','n'])] (uploadStream items ++ rest) w →
        ∃ w', client_download .calm w = .ok () w' ∧
          w'.rcl.bytes = downloadRequest [(text ['/','a'],text ['/','d','/','n'])] ∧
          w'.rcl.inp = rest ∧
          List.Forall₂ (fun x q => Recreated System.calm.toKernel smallTree x.1 w'.disk.fs q)
            [(text ['/','a'],text ['/','d','/','n'])] [[text ['d'],text ['n']]] := by
  have hglance : System.calm.glance smallTree (text ['/','a']) = .ok [text ['a']] := by
    decide +kernel
  have hread : Readable .calm smallTree := by
    refine ⟨System.calm_fair,fun _ _ _ => rfl,fun p t h => ?_⟩
    rcases node_smallTree h with ⟨_,hn⟩ | ⟨_,hn⟩ | ⟨_,hn⟩ | ⟨_,hn⟩ <;> simp at hn
  have hsizes : ∀ r content, smallTree.fileAt r = some content → content.length < 2^64 := by
    intro r content h
    have hsmall : ∀ r ∈ smallTree.paths, ∀ content ∈ smallTree.fileAt r, content.length < 2^64 := by
      decide +kernel
    have hmem : r ∈ smallTree.paths := by
      refine (smallTree.mem_paths r).mpr ?_
      unfold FileSystem.fileAt at h
      split at h
      · rename_i hn
        rw [hn]
        rfl
      · simp at h
    exact hsmall r hmem content h
  have hplaced : Placed System.calm.toKernel System.calm.toKernel smallTree emptyHome
      (text ['/','a'],text ['/','d','/','n']) [text ['d'],text ['n']] := by
    refine ⟨⟨by decide,by decide,[text ['d']],[text ['d']],text ['n'],[],by decide +kernel,
      by decide +kernel,by decide +kernel,by decide,by decide +kernel,by decide +kernel,rfl⟩,
      fun hend => absurd hend (by decide),fun t n h => ?_⟩
    simp only [sourceAt,hglance] at h
    rcases node_smallTree h with ⟨hp,_⟩ | ⟨hp,_⟩ | ⟨hp,_⟩ | ⟨hp,_⟩
    · simp at hp
    · obtain rfl : t = [] := by simpa using hp
      decide +kernel
    · obtain rfl : t = [text ['e']] := by simpa using hp
      decide +kernel
    · obtain rfl : t = [text ['x']] := by simpa using hp
      decide +kernel
  exact download_recreates_trees hread hsizes System.calm_fair (fun _ _ _ => rfl)
    (by decide) (fun x hx p _ _ => by
      rw [List.mem_singleton.mp hx]
      decide) (.cons hplaced .nil) (by simp) ⟨rfl,by rw [List.append_nil]; rfl,[],[],rfl,rfl,rfl,rfl⟩

end RootHelper
