import RootHelper.TransferProgress

/-!
Uploading files that have been opened elsewhere: their descriptors come over the local socket, one with
each name, and the other party makes the files of what is left to read in them.
-/

set_option autoImplicit false

namespace RootHelper
open Posix Control

abbrev OpenedFile := Path × Nat

/-- `incoming` are the descriptors that are sent along with the next bytes. -/
def recvfd (incoming : List OpenedFile) : TransferM (Option OpenedFile) := do
  match ← Transfer.clPart.run readByte with
  | none => pure none
  | some _ => pure incoming.head?

section Model

variable (sys : System)

def OSUploadFromFileDescriptorWithProgress (input : Path) (destination : Str) (thisFileSize : Nat)
    (outDesc : Bool) : TransferM Int := do
  networkDesc.writeAllOrExit (.bytes (fileHeader destination thisFileSize))
  tell outDesc (.u64 thisFileSize)
  uploadChunks sys outDesc input (chunks REMOTE_IO_CHUNK_SIZE thisFileSize) 0
  pure 0

/-- At most `turns` files. -/
def uploadDescriptors : Nat → List OpenedFile → TransferM Unit
  | 0, _ => throw .diverged
  | turns+1, incoming => do
    let destPath ← clDesc.readStringWithLen
    if destPath = [] then pure ()
    else do
      let size ← clDesc.readU64
      match ← recvfd incoming with
      | none => throw .threadExit
      | some (input,offset) => do
        modify fun s => { s with offset := offset }
        let _ ← OSUploadFromFileDescriptorWithProgress sys input destPath size true
        tell true (.u64 maxuint)
        uploadDescriptors turns incoming.tail

def client_upload_from_fds (incoming : List OpenedFile) (rq : request_type) : TransferM Unit := do
  let totalSize ← clDesc.readU64
  networkDesc.writeAllOrExit (.u8 rq.byte)
  networkDesc.writeAllOrExit (.u64 0)
  networkDesc.writeAllOrExit (.u64 totalSize)
  let s ← get
  uploadDescriptors sys (s.cl.inp.length+1) incoming
  tell true (.u64 maxuint_2)
  networkDesc.writeAllOrExit (.u8 0xFF)

end Model

/-- A file as the local client announces it: `mark` is the byte that its descriptor comes with. -/
structure HandedFile where
  destPath : Str
  size : Nat
  mark : Byte
  input : OpenedFile
  deriving DecidableEq, Repr

namespace HandedFile

def bytes (f : HandedFile) : Str := stringBytes f.destPath ++ (littleEndian 8 f.size ++ [f.mark])

def content (fs : FileSystem) (f : HandedFile) : Str := ((fs.fileAt f.input.1).getD []).drop f.input.2

def item (fs : FileSystem) (f : HandedFile) : Item := ⟨f.destPath,some ((f.content fs).take f.size)⟩

/-- The formats have room for it, and a regular file is open. -/
structure Proper (fs : FileSystem) (f : HandedFile) : Prop where
  named : f.destPath ≠ []
  short : f.destPath.length < 65536
  fits : f.size < 2^64
  opened : ∃ bytes mode, fs.node f.input.1 = some (.file bytes mode)

end HandedFile

/-- What is sent of `files` breaks off in the content of the first that has less to read than was
announced for it. -/
def BrokenOff (fs : FileSystem) (files : List HandedFile) (sent : Str) : Prop :=
  ∃ before f after part, files = before ++ f :: after ∧
    (∀ g ∈ before, g.size ≤ (g.content fs).length) ∧ (f.content fs).length < f.size ∧
    part <+: f.content fs ∧ sent = (before.map (HandedFile.item fs)).flatMap Item.bytes ++
      (fileHeader f.destPath f.size ++ part)

def fdsRequest (totalSize : Nat) (files : List HandedFile) : Str :=
  littleEndian 8 totalSize ++ (files.flatMap HandedFile.bytes ++ stringBytes [])

/-- The file system is `fs` and the open file is read on at `offset`; `inp` is what the local client still
says, `told` what it was told, and `cs` what has been sent. -/
structure Handing (fs : FileSystem) (offset : Nat) (inp : Str) (told : List Nat) (u : Transfer)
    (cs : Str) : Prop where
  disk : u.disk.fs = fs
  place : u.offset = offset
  network : ∃ reply, Tells reply u.rcl cs
  client : Tells inp u.cl (numberBytes told)

section Handing

variable {fs : FileSystem} {offset : Nat} {told : List Nat} {inp cs : Str} {u : Transfer} {sys : System}

theorem client_reads : clDesc.toSource.Reads fun u inp => Handing fs offset inp told u cs := by
  intro bs u rest ⟨hdisk,hplace,hrcl,hinp,hroom,hopen,htold⟩
  have hears : Hears u.cl.out u.cl (bs ++ rest) := by rw [Hears,← hinp,← hroom,← hopen]
  change wp (Transfer.clPart.run (connDesc.readAllOrExit bs.length)) _ _ u
  rw [wp_run]
  refine wp_mono (conn_reads u.cl.out bs u.cl rest hears) (fun _ k hk => ?_) fun _ _ h => h
  obtain ⟨hbs,rfl⟩ := hk
  exact ⟨hbs,hdisk,hplace,hrcl,rfl,rfl,rfl,htold⟩

theorem prints_handing (c : Chunk) :
    Prints (Handing fs offset inp told) (networkDesc.writeAllOrExit c) c.encode := by
  intro u cs ⟨hdisk,hplace,⟨reply,hrcl⟩,hcl⟩
  change wp (Transfer.rclPart.run (connDesc.writeAllOrExit c)) _ _ u
  rw [wp_run]
  exact wp_mono (conn_writes reply c u.rcl cs hrcl) (fun _ k hk => ⟨hdisk,hplace,⟨reply,hk⟩,hcl⟩)
    fun _ _ h => h

theorem wp_tells (n : Nat) (h : Handing fs offset inp told u cs) :
    wp (tell true (.u64 n)) (fun _ u' => Handing fs offset inp (told ++ [n]) u' cs) (fun _ _ => False) u := by
  change wp (Transfer.clPart.run (connDesc.writeAllOrExit (.u64 n))) _ _ u
  rw [wp_run]
  refine wp_mono (conn_writes inp (.u64 n) u.cl _ h.client)
    (fun _ k hk => ⟨h.disk,h.place,h.network,?_⟩) fun _ _ h => h
  change Tells inp k _
  rw [numberBytes_append]
  simpa [numberBytes,Chunk.encode] using hk

def Unheard (u u' : Transfer) : Prop := u'.cl.inp = u.cl.inp

instance : Std.Refl Unheard := ⟨fun _ => rfl⟩

instance : IsTrans Transfer Unheard := ⟨fun _ _ _ h h' => Eq.trans h' h⟩

theorem unheard_chunks (outDesc : Bool) (input : Path) (l : List Nat) (cur : Nat) :
    Moves Unheard (uploadChunks sys outDesc input l cur) := by
  induction l generalizing cur with
  | nil => exact moves_pure _
  | cons count rest ih =>
    have hfile : Moves Unheard (Transfer.filePart.run ((inputFile sys input).readAllOrExit count)) :=
      Moves.run (T := fun _ _ => True) (fun _ => wp_trivial (fun _ _ => trivial) fun _ _ => trivial)
        fun _ _ _ => rfl
    have hsend : ∀ v, Moves Unheard (networkDesc.writeAllOrExit v) := fun v =>
      Moves.run (L := Transfer.rclPart) (told_writeAllOrExit v) fun _ _ _ => rfl
    have htell : ∀ c, Moves Unheard (tell outDesc c) := fun c =>
      Moves.ite (Moves.run (L := Transfer.clPart) (told_writeAllOrExit c) fun _ _ h => h.1) (moves_pure _)
    exact hfile.bind fun v => (hsend _).bind fun _ => (htell _).bind fun _ => ih _

theorem wp_fromDescriptor {input : Path} {destPath : Str} {size : Nat} {Q : Int → Transfer → Prop}
    {E : Stop → Transfer → Prop} (h : Handing fs offset inp told u cs)
    (hnext : ∀ u', Handing fs offset inp (told ++ [size]) u' (cs ++ fileHeader destPath size) →
      wp (uploadChunks sys true input (chunks REMOTE_IO_CHUNK_SIZE size) 0) (fun _ u'' => Q 0 u'') E u') :
    wp (OSUploadFromFileDescriptorWithProgress sys input destPath size true) Q E u := by
  rw [OSUploadFromFileDescriptorWithProgress]
  refine (prints_handing _).before h fun _ u₁ h₁ => ?_
  rw [wp_bind]
  refine wp_mono (wp_tells size h₁) (fun _ u₂ h₂ => ?_) fun _ _ h => h.elim
  rw [wp_bind]
  exact hnext u₂ h₂

theorem Handing.reads {f : HandedFile} (h : Handing fs f.input.2 inp told u cs) (hf : f.Proper fs) :
    Reading fs f.input.1 (u.disk,u.offset) (f.content fs) ∧ Sending (u.disk,u.offset) u cs := by
  obtain ⟨bytes,mode,hnode⟩ := hf.opened
  refine ⟨⟨h.disk,bytes,mode,hnode,?_⟩,rfl,h.network,inp,_,h.client⟩
  rw [h.place,HandedFile.content,FileSystem.fileAt,hnode]
  rfl

theorem wp_handedChunks (hfair : sys.Fair) {f : HandedFile} (hf : f.Proper fs)
    (hlong : f.size ≤ (f.content fs).length) (h : Handing fs f.input.2 inp told u cs) :
    wp (uploadChunks sys true f.input.1 (chunks REMOTE_IO_CHUNK_SIZE f.size) 0)
      (fun _ u' => ∃ offset, Handing fs offset inp
        (told ++ cumulative (chunks REMOTE_IO_CHUNK_SIZE f.size) 0) u'
        (cs ++ (f.content fs).take f.size)) (fun _ _ => False) u := by
  obtain ⟨hreading,hsending⟩ := h.reads hf
  have hsent := @wp_uploadChunks sys fs true f.input.1 (chunks REMOTE_IO_CHUNK_SIZE f.size) (f.content fs)
    cs u 0 _ hfair (fun n hn => pos_of_mem_chunks (by decide) hn) (by rwa [sum_chunks]) hreading hsending
  have htold := @emits_chunks sys f.input.1 (chunks REMOTE_IO_CHUNK_SIZE f.size) 0 u
  refine wp_mono (wp_and (wp_and hsent htold) (unheard_chunks true f.input.1 _ 0 u)) (fun _ u' h' => ?_)
    fun _ _ h => h.1.1
  obtain ⟨⟨⟨g,hg,hfile,hnetwork,said,_,hclient⟩,_,told',⟨_,htold'⟩,_,hbytes⟩,hheard⟩ := h'
  rw [sum_chunks] at hnetwork
  refine ⟨u'.offset,by rw [← hg,← hfile],rfl,hnetwork,?_,hclient.2.1,hclient.2.2.1,?_⟩
  · rw [show u'.cl.inp = u.cl.inp from hheard,h.client.1]
  · rw [hbytes,htold',h.client.2.2.2,numberBytes_append]

theorem wp_recvfd {b : Byte} {rest : Str} (incoming : List OpenedFile)
    (h : Handing fs offset (b :: rest) told u cs) :
    wp (recvfd incoming) (fun fd u' => fd = incoming.head? ∧ Handing fs offset rest told u' cs)
      (fun _ _ => False) u := by
  obtain ⟨hdisk,hplace,hrcl,hinp,hroom,hopen,htold⟩ := h
  rw [recvfd,wp_bind,wp_run]
  change wp readByte _ _ u.cl
  rw [readByte,wp_bind,wp_get,hopen,hinp]
  exact ⟨rfl,hdisk,hplace,hrcl,rfl,hroom,rfl,htold⟩

variable {f : HandedFile} {incoming : List OpenedFile} {turns : Nat} {rest : Str}

theorem wp_announced (hf : f.Proper fs) (h : Handing fs offset (f.bytes ++ rest) told u cs)
    {Q : Unit → Transfer → Prop} {E : Stop → Transfer → Prop}
    (hnext : ∀ u', Handing fs f.input.2 rest (told ++ [f.size]) u' (cs ++ fileHeader f.destPath f.size) →
      wp (uploadChunks sys true f.input.1 (chunks REMOTE_IO_CHUNK_SIZE f.size) 0) (fun _ u'' => wp (do
        tell true (.u64 maxuint)
        uploadDescriptors sys turns incoming) Q E u'') E u') :
    wp (uploadDescriptors sys (turns+1) (f.input :: incoming)) Q E u := by
  obtain ⟨hnamed,hshort,hfits,_⟩ := hf
  rw [HandedFile.bytes,List.append_assoc,List.append_assoc] at h
  rw [uploadDescriptors]
  refine (parses_string client_reads.some hshort).before h fun u₁ h₁ => ?_
  rw [if_neg hnamed]
  refine (parses_u64 client_reads.some hfits).before h₁ fun u₂ h₂ => ?_
  rw [wp_bind]
  refine wp_mono (wp_recvfd (f.input :: incoming) h₂) (fun fd u₃ h₃ => ?_) fun _ _ h => h.elim
  obtain ⟨rfl,h₃⟩ := h₃
  rw [List.head?_cons]
  dsimp only
  rw [wp_bind,wp_modify,wp_bind]
  have h₄ : Handing fs f.input.2 rest told { u₃ with offset := f.input.2 } cs :=
    ⟨h₃.disk,rfl,h₃.network,h₃.client⟩
  exact wp_fromDescriptor h₄ hnext

theorem wp_uploadDescriptors (hfair : sys.Fair) {files : List HandedFile}
    (hfiles : ∀ f ∈ files, f.Proper fs) (hlong : ∀ f ∈ files, f.size ≤ (f.content fs).length)
    (hturns : files.length < turns)
    (h : Handing fs offset (files.flatMap HandedFile.bytes ++ (stringBytes [] ++ rest)) told u cs) :
    wp (uploadDescriptors sys turns (files.map HandedFile.input)) (fun _ u' => ∃ offset, Handing fs offset
      rest (told ++ files.flatMap fun f => fileNumbers f.size) u'
      (cs ++ (files.map (HandedFile.item fs)).flatMap Item.bytes)) (fun _ _ => False) u := by
  induction files generalizing turns u told cs offset with
  | nil =>
    obtain ⟨turns,rfl⟩ := Nat.exists_eq_succ_of_ne_zero (Nat.ne_of_gt hturns)
    rw [uploadDescriptors]
    refine (parses_string client_reads.some (by simp)).before h fun u₁ h₁ => ?_
    rw [if_pos rfl]
    exact ⟨offset,by simpa using h₁⟩
  | cons f files ih =>
    obtain ⟨turns,rfl⟩ := Nat.exists_eq_succ_of_ne_zero (Nat.ne_of_gt (Nat.zero_lt_of_lt hturns))
    have hf := hfiles f List.mem_cons_self
    have hsize := hlong f List.mem_cons_self
    rw [List.flatMap_cons,List.append_assoc] at h
    refine wp_announced hf h fun u₁ h₁ => ?_
    refine wp_mono (wp_handedChunks hfair hf hsize h₁) (fun _ u₂ h₂ => ?_) fun _ _ h => h.elim
    obtain ⟨offset,h₂⟩ := h₂
    rw [wp_bind]
    refine wp_mono (wp_tells maxuint h₂) (fun _ u₃ h₃ => ?_) fun _ _ h => h.elim
    refine wp_mono (ih (fun g hg => hfiles g (List.mem_cons_of_mem _ hg))
      (fun g hg => hlong g (List.mem_cons_of_mem _ hg)) (Nat.lt_of_succ_lt_succ hturns) h₃)
      (fun _ u₄ h₄ => ?_) fun _ _ h => h
    obtain ⟨offset,h₄⟩ := h₄
    refine ⟨offset,?_⟩
    simpa [fileNumbers,HandedFile.item,Item.bytes,Nat.min_eq_left hsize] using h₄

theorem uploadDescriptors_exits (hfair : sys.Fair) {files : List HandedFile}
    (hfiles : ∀ f ∈ files, f.Proper fs) (hshort : ∃ f ∈ files, (f.content fs).length < f.size)
    (hturns : files.length < turns)
    (h : Handing fs offset (files.flatMap HandedFile.bytes ++ (stringBytes [] ++ rest)) told u cs) :
    wp (uploadDescriptors sys turns (files.map HandedFile.input)) (fun _ _ => False)
      (fun e u' => e = .threadExit ∧ ∃ sent, BrokenOff fs files sent ∧ u'.rcl.bytes = cs ++ sent) u := by
  induction files generalizing turns u told cs offset with
  | nil => simp at hshort
  | cons f files ih =>
    obtain ⟨turns,rfl⟩ := Nat.exists_eq_succ_of_ne_zero (Nat.ne_of_gt (Nat.zero_lt_of_lt hturns))
    have hf := hfiles f List.mem_cons_self
    rw [List.flatMap_cons,List.append_assoc] at h
    refine wp_announced hf h fun u₁ h₁ => ?_
    by_cases hsize : f.size ≤ (f.content fs).length
    · refine wp_mono (wp_handedChunks hfair hf hsize h₁) (fun _ u₂ h₂ => ?_) fun _ _ h => h.elim
      obtain ⟨offset,h₂⟩ := h₂
      rw [wp_bind]
      refine wp_mono (wp_tells maxuint h₂) (fun _ u₃ h₃ => ?_) fun _ _ h => h.elim
      obtain ⟨g,hg,hless⟩ := hshort
      rcases List.mem_cons.mp hg with rfl | hg
      · omega
      refine wp_mono (ih (fun g hg => hfiles g (List.mem_cons_of_mem _ hg)) ⟨g,hg,hless⟩
        (Nat.lt_of_succ_lt_succ hturns) h₃) (fun _ _ h => h) fun e u₄ h₄ => ?_
      obtain ⟨rfl,_,⟨before,k,after,part,rfl,hbefore,hk,hpart,rfl⟩,hbytes⟩ := h₄
      refine ⟨rfl,_,⟨f :: before,k,after,part,rfl,List.forall_mem_cons.mpr ⟨hsize,hbefore⟩,hk,hpart,rfl⟩,?_⟩
      rw [hbytes]
      simp [HandedFile.item,Item.bytes,Nat.min_eq_left hsize]
    · obtain ⟨hreading,hsending⟩ := h₁.reads hf
      refine wp_mono (uploadChunks_exits hfair (fun n hn => pos_of_mem_chunks (by decide) hn)
        (by rw [sum_chunks]; omega) hreading hsending) (fun _ _ h => h.elim) fun e u₂ h₂ => ?_
      obtain ⟨rfl,part,hpart,hbytes⟩ := h₂
      refine ⟨rfl,_,⟨[],f,files,part,rfl,by simp,Nat.lt_of_not_le hsize,hpart,rfl⟩,?_⟩
      rw [hbytes,List.append_assoc]
      rfl

theorem wp_fdsRequest {totalSize : Nat} {files : List HandedFile} {rq : request_type}
    {incoming : List OpenedFile} (htotal : totalSize < 2^64)
    (h : Handing fs offset (fdsRequest totalSize files ++ rest) told u cs)
    {Q : Unit → Transfer → Prop} {E : Stop → Transfer → Prop}
    (hnext : ∀ (turns : Nat) (u' : Transfer), files.length < turns →
      Handing fs offset (files.flatMap HandedFile.bytes ++ (stringBytes [] ++ rest)) told u'
        (cs ++ (rq.byte :: (littleEndian 8 0 ++ littleEndian 8 totalSize))) →
      wp (do
        uploadDescriptors sys turns incoming
        tell true (.u64 maxuint_2)
        networkDesc.writeAllOrExit (.u8 0xFF)) Q E u') :
    wp (client_upload_from_fds sys incoming rq) Q E u := by
  rw [fdsRequest,List.append_assoc,List.append_assoc] at h
  rw [client_upload_from_fds]
  refine (parses_u64 client_reads.some htotal).before h fun u₁ h₁ => ?_
  refine (prints_handing _).before h₁ fun _ u₂ h₂ => (prints_handing _).before h₂ fun _ u₃ h₃ =>
    (prints_handing _).before h₃ fun _ u₄ h₄ => ?_
  rw [wp_bind,wp_get]
  refine hnext _ u₄ ?_ (by simpa [Chunk.encode] using h₄)
  have hmarks := length_le_flatMap (l := files) (f := HandedFile.bytes) fun f _ => by
    simp [HandedFile.bytes]
  rw [h₄.client.1,List.length_append]
  omega

end Handing

section Sides

variable {fs gs : FileSystem} {offset totalSize : Nat} {files : List HandedFile} {rest : Str}
  {u : Transfer}

theorem wp_takesUpload {server : System} {todo : List (Item × Path)} (hfair : server.Fair)
    (hperm : ∀ p c m, server.permits p c m = true)
    (hitems : ∀ e ∈ todo, Sendable server.toKernel gs e) (hapart : (todo.map Prod.snd).Pairwise Apart)
    {totalFiles : Nat} {cl : Bool} {w : Transfer} {f : Disk × Nat} (hf : f.1.fs = gs)
    (h : Listening f w ((littleEndian 8 totalFiles ++ (littleEndian 8 totalSize ++
      ((todo.map Prod.fst).flatMap Item.bytes ++ [0xFF]))) ++ rest)) :
    wp (downloadRemoteItems server cl) (fun _ w' => Listening (w'.disk,w'.offset) w' rest ∧
      Taken gs todo.reverse w'.disk.fs) (fun _ _ => False) w := by
  have hnumber : ∀ n, Parses (Listening f) networkDesc.readU64 (littleEndian 8 n)
      (fromLittleEndian (littleEndian 8 n)) := fun n =>
    (network_reads.bytes (length_littleEndian 8 n)).map fromLittleEndian
  rw [List.flatMap_map,List.append_assoc,List.append_assoc,List.append_assoc] at h
  rw [downloadRemoteItems]
  refine (hnumber _).before h fun w₁ h₁ => (hnumber _).before h₁ fun w₂ h₂ =>
    (parses_tell cl _).before h₂ fun w₃ h₃ => (parses_tell cl _).before h₃ fun w₄ h₄ => ?_
  have hturns : todo.length < w₄.rcl.inp.length + 1 := by
    have hle := length_le_flatMap (l := todo) (f := fun e => e.1.bytes) fun e _ => bytes_ne_nil e.1
    obtain ⟨out,hrcl⟩ := h₄.network
    have hinp : w₄.rcl.inp = (todo.flatMap fun e => e.1.bytes) ++ ([0xFF] ++ rest) := by
      rw [hrcl]
      rfl
    rw [hinp,List.length_append]
    omega
  have hnothing : ∀ e ∈ todo, ∀ e' ∈ ([] : List (Item × Path)), Apart e.2 e'.2 := by simp
  rw [wp_bind,wp_get,wp_bind]
  refine wp_mono (wp_downloadItems hfair hperm hitems hapart hnothing hturns
    (by rw [hf]; exact taken_nil gs) h₄) (fun _ w₅ h₅ => ?_) fun _ _ h => h
  obtain ⟨f₅,h₅,htaken⟩ := h₅
  refine wp_mono (parses_tell cl _ w₅ rest h₅) (fun _ w₆ h₆ => ?_) fun _ _ h => h
  obtain ⟨-,h₆⟩ := h₆
  rw [List.append_nil] at htaken
  obtain rfl := h₆.file
  exact ⟨h₆,htaken⟩

theorem wp_client_upload_from_fds {client : System} (hfair : client.Fair) (htotal : totalSize < 2^64)
    (hfiles : ∀ f ∈ files, f.Proper fs) (hlong : ∀ f ∈ files, f.size ≤ (f.content fs).length)
    (flags : Fin 8) (hu : Handing fs offset (fdsRequest totalSize files ++ rest) [] u []) :
    wp (client_upload_from_fds client (files.map HandedFile.input) ⟨.ofNat 32 ACTION_UPLOAD.toNat,flags⟩)
      (fun _ u' => ∃ offset, Handing fs offset rest ((files.flatMap fun f => fileNumbers f.size) ++
        [maxuint_2]) u' (RemoteRequest.upload flags 0 totalSize (files.map (HandedFile.item fs))).bytes)
      (fun _ _ => False) u := by
  refine wp_fdsRequest htotal hu fun turns u₁ hturns h₁ => ?_
  rw [wp_bind]
  refine wp_mono (wp_uploadDescriptors hfair hfiles hlong hturns h₁) (fun _ u₂ h₂ => ?_) fun _ _ h => h
  obtain ⟨offset,h₂⟩ := h₂
  rw [wp_bind]
  refine wp_mono (wp_tells maxuint_2 h₂) (fun _ u₃ h₃ => ?_) fun _ _ h => h
  refine wp_mono (prints_handing _ u₃ _ h₃) (fun _ u₄ h₄ => ⟨offset,?_⟩) fun _ _ h => h
  simpa [RemoteRequest.bytes,RemoteRequest.rq,RemoteRequest.body,Chunk.encode] using h₄

/-- The upload comes to its end just when each file has as much to read as was announced; otherwise the
thread exits, and its request breaks off in the content of a file. -/
theorem fd_upload_ends {client : System} (hfair : client.Fair) (htotal : totalSize < 2^64)
    (hfiles : ∀ f ∈ files, f.Proper fs) (flags : Fin 8)
    (hu : Handing fs offset (fdsRequest totalSize files ++ rest) [] u []) :
    ((∃ u', client_upload_from_fds client (files.map HandedFile.input)
        ⟨.ofNat 32 ACTION_UPLOAD.toNat,flags⟩ u = .ok () u') ↔
      ∀ f ∈ files, f.size ≤ (f.content fs).length) ∧
    ((∃ f ∈ files, (f.content fs).length < f.size) →
      ∃ u' sent, client_upload_from_fds client (files.map HandedFile.input)
          ⟨.ofNat 32 ACTION_UPLOAD.toNat,flags⟩ u = .error .threadExit u' ∧ BrokenOff fs files sent ∧
        u'.rcl.bytes = request_type.byte ⟨.ofNat 32 ACTION_UPLOAD.toNat,flags⟩ ::
          (littleEndian 8 0 ++ (littleEndian 8 totalSize ++ sent))) := by
  have hexits : (∃ f ∈ files, (f.content fs).length < f.size) →
      ∃ u' sent, client_upload_from_fds client (files.map HandedFile.input)
          ⟨.ofNat 32 ACTION_UPLOAD.toNat,flags⟩ u = .error .threadExit u' ∧ BrokenOff fs files sent ∧
        u'.rcl.bytes = request_type.byte ⟨.ofNat 32 ACTION_UPLOAD.toNat,flags⟩ ::
          (littleEndian 8 0 ++ (littleEndian 8 totalSize ++ sent)) := by
    intro hshort
    have hrun : wp (client_upload_from_fds client (files.map HandedFile.input)
        ⟨.ofNat 32 ACTION_UPLOAD.toNat,flags⟩) (fun _ _ => False)
        (fun e u' => e = .threadExit ∧ ∃ sent, BrokenOff fs files sent ∧
          u'.rcl.bytes = [] ++ (request_type.byte ⟨.ofNat 32 ACTION_UPLOAD.toNat,flags⟩ ::
            (littleEndian 8 0 ++ littleEndian 8 totalSize)) ++ sent) u := by
      refine wp_fdsRequest htotal hu fun turns u₁ hturns h₁ => ?_
      rw [wp_bind]
      exact wp_mono (uploadDescriptors_exits hfair hfiles hshort hturns h₁) (fun _ _ h => h.elim)
        fun _ _ h => h
    obtain ⟨_,u',hrun,rfl,sent,hbroken,hbytes⟩ := error_of_wp hrun
    exact ⟨u',sent,hrun,hbroken,by simpa using hbytes⟩
  refine ⟨⟨fun ⟨u',hrun⟩ => ?_,fun hlong => ?_⟩,hexits⟩
  · by_contra hnot
    obtain ⟨v,sent,herror,-⟩ := hexits (by simpa using hnot)
    rw [hrun] at herror
    cases herror
  · obtain ⟨_,u',hrun,_⟩ := ok_of_wp (wp_client_upload_from_fds hfair htotal hfiles hlong flags hu)
    exact ⟨u',hrun⟩

/-- What the other party's session makes of the request: at each place the file as it was read here. -/
theorem fd_upload_recreates {client : System} {server : RemoteServer} (hfair : client.Fair)
    (hserver : server.sys.Fair) (hperm : ∀ p c m, server.sys.permits p c m = true)
    (htotal : totalSize < 2^64) (hfiles : ∀ f ∈ files, f.Proper fs)
    (hlong : ∀ f ∈ files, f.size ≤ (f.content fs).length) (flags : Fin 8) {places : List Path}
    (hplaced : List.Forall₂ (fun f q => FreshWay server.sys.toKernel gs f.destPath q) files places)
    (hnames : ∀ f ∈ files, ¬ endsWithSlash f.destPath) (hapart : places.Pairwise Apart)
    (hu : Handing fs offset (fdsRequest totalSize files ++ rest) [] u []) :
    ∃ u', client_upload_from_fds client (files.map HandedFile.input)
        ⟨.ofNat 32 ACTION_UPLOAD.toNat,flags⟩ u = .ok () u' ∧ u'.cl.inp = rest ∧
      u'.cl.bytes = numberBytes ((files.flatMap fun f => fileNumbers f.size) ++ [maxuint_2]) ∧
      ∀ (next : Str) (w : Transfer), w.disk.fs = gs →
        Listening (w.disk,w.offset) w (u'.rcl.bytes ++ next) →
        ∃ w', tlsServerSessionTurn server w = .ok () w' ∧ Listening (w'.disk,w'.offset) w' next ∧
          gs.Le w'.disk.fs ∧
          List.Forall₂ (fun f q => w'.disk.fs.fileAt q = some ((f.content fs).take f.size)) files places := by
  obtain ⟨_,u',hrun,offset',h'⟩ :=
    ok_of_wp (wp_client_upload_from_fds hfair htotal hfiles hlong flags hu)
  refine ⟨u',hrun,h'.client.1,h'.client.2.2.2,fun next w hw hin => ?_⟩
  obtain ⟨reply,-,-,-,hsent⟩ := h'.network
  rw [hsent,RemoteRequest.bytes,List.append_assoc] at hin
  rw [List.forall₂_iff_zip] at hplaced
  obtain ⟨hlen,hplaced⟩ := hplaced
  -- each item with its place
  let todo : List (Item × Path) := (files.zip places).map fun x => (x.1.item fs,x.2)
  have hfst : todo.map Prod.fst = files.map (HandedFile.item fs) := by
    have hzip := List.map_fst_zip (Nat.le_of_eq hlen)
    conv_rhs => rw [← hzip]
    simp [todo]
  have hsnd : todo.map Prod.snd = places := by
    have hzip := List.map_snd_zip (Nat.le_of_eq hlen.symm)
    conv_rhs => rw [← hzip]
    simp [todo]
  have hitems : ∀ e ∈ todo, Sendable server.sys.toKernel gs e := by
    intro e he
    obtain ⟨⟨f,q⟩,hx,rfl⟩ := List.mem_map.mp he
    have hf := (List.of_mem_zip hx).1
    refine ⟨hplaced hx,(hfiles f hf).short,fun bytes hbytes => ⟨?_,hnames f hf⟩⟩
    obtain rfl := Option.some.inj hbytes
    rw [List.length_take,Nat.min_eq_left (hlong f hf)]
    exact (hfiles f hf).fits
  have hturn : wp (tlsServerSessionTurn server) (fun _ w' => Listening (w'.disk,w'.offset) w' next ∧
      Taken gs todo.reverse w'.disk.fs) (fun _ _ => False) w := by
    rw [tlsServerSessionTurn]
    refine ((parses_u8 network_reads.some _).map request_type.ofByte).before hin fun w₁ h₁ => ?_
    rw [request_type.ofByte_byte]
    rw [RemoteRequest.body,← hfst] at h₁
    exact wp_takesUpload hserver hperm hitems (by rwa [hsnd]) hw h₁
  obtain ⟨_,w',hrun,hnext,htaken⟩ := ok_of_wp hturn
  refine ⟨w',hrun,hnext,htaken.le,List.forall₂_iff_zip.mpr ⟨hlen,fun hx => ?_⟩⟩
  exact htaken.file (_,_) (List.mem_reverse.mpr (List.mem_map_of_mem hx)) _ rfl

end Sides

/-- The file of one byte in the small tree, opened at its beginning. -/
def handedByte : HandedFile := ⟨text ['/','d','/','n'],1,0,([text ['a'],text ['x']],0)⟩

/-- The same file again, announced with a byte that it does not have. -/
def handedLong : HandedFile := ⟨text ['/','d','/','m'],2,0,([text ['a'],text ['x']],0)⟩

theorem handed_proper {files : List HandedFile} (h : files ⊆ [handedByte,handedLong]) :
    ∀ f ∈ files, f.Proper smallTree := by
  intro f hf
  rcases List.mem_cons.mp (h hf) with rfl | hf
  · exact ⟨by decide,by decide,by decide,text ['y'],0o644,by decide +kernel⟩
  · rw [List.mem_singleton.mp hf]
    exact ⟨by decide,by decide,by decide,text ['y'],0o644,by decide +kernel⟩

def hands (files : List HandedFile) : Transfer :=
  ⟨⟨smallTree,[],0,0⟩,0,⟨fdsRequest 1 files,[],none,false⟩,⟨[],[],none,false⟩⟩

theorem hands_handing (files : List HandedFile) :
    Handing smallTree 0 (fdsRequest 1 files ++ []) [] (hands files) [] :=
  ⟨rfl,rfl,⟨[],rfl,rfl,rfl,rfl⟩,by rw [List.append_nil]; rfl,rfl,rfl,rfl⟩

/-- The first file alone is sent; behind it the second ends the thread. -/
theorem fd_upload_ends_byte :
    (∃ u', client_upload_from_fds .calm ([handedByte].map HandedFile.input)
        ⟨.ofNat 32 ACTION_UPLOAD.toNat,7⟩ (hands [handedByte]) = .ok () u') ∧
    ∃ u' sent, client_upload_from_fds .calm ([handedByte,handedLong].map HandedFile.input)
        ⟨.ofNat 32 ACTION_UPLOAD.toNat,7⟩ (hands [handedByte,handedLong]) = .error .threadExit u' ∧
      BrokenOff smallTree [handedByte,handedLong] sent ∧
      u'.rcl.bytes = request_type.byte ⟨.ofNat 32 ACTION_UPLOAD.toNat,7⟩ ::
        (littleEndian 8 0 ++ (littleEndian 8 1 ++ sent)) := by
  have hall : ∀ f ∈ [handedByte], f.size ≤ (f.content smallTree).length := by decide +kernel
  have hless : ∃ f ∈ [handedByte,handedLong], (f.content smallTree).length < f.size := by
    decide +kernel
  exact ⟨(fd_upload_ends System.calm_fair (by decide) (handed_proper (by simp)) 7
      (hands_handing [handedByte])).1.mpr hall,
    (fd_upload_ends System.calm_fair (by decide) (handed_proper (by simp)) 7
      (hands_handing [handedByte,handedLong])).2 hless⟩

theorem fd_upload_recreates_byte :
    ∃ u', client_upload_from_fds .calm ([handedByte].map HandedFile.input)
        ⟨.ofNat 32 ACTION_UPLOAD.toNat,7⟩ (hands [handedByte]) = .ok () u' ∧ u'.cl.inp = [] ∧
      u'.cl.bytes = numberBytes (([handedByte].flatMap fun f => fileNumbers f.size) ++ [maxuint_2]) ∧
      ∀ (next : Str) (w : Transfer), w.disk.fs = emptyHome →
        Listening (w.disk,w.offset) w (u'.rcl.bytes ++ next) →
        ∃ w', tlsServerSessionTurn (guarded fun _ => false) w = .ok () w' ∧
          Listening (w'.disk,w'.offset) w' next ∧ emptyHome.Le w'.disk.fs ∧
          List.Forall₂ (fun f q => w'.disk.fs.fileAt q = some ((f.content smallTree).take f.size))
            [handedByte] [[text ['d'],text ['n']]] := by
  have hlong : ∀ f ∈ [handedByte], f.size ≤ (f.content smallTree).length := by decide +kernel
  have hplaced : FreshWay System.calm.toKernel emptyHome handedByte.destPath [text ['d'],text ['n']] :=
    ⟨by decide,by decide,[text ['d']],[text ['d']],text ['n'],[],by decide +kernel,
      by decide +kernel,by decide +kernel,by decide,by decide +kernel,by decide +kernel,rfl⟩
  exact fd_upload_recreates System.calm_fair System.calm_fair (fun _ _ _ => rfl) (by decide)
    (handed_proper (by simp)) hlong 7 (.cons hplaced .nil) (by decide) (by simp) (hands_handing [handedByte])

end RootHelper
