import RootHelper.RoundTrips
import RootHelper.Transfer

/-!
What the upload sends for one file: its size as the metadata has it, and as many bytes of what the
opened file holds.
-/

set_option autoImplicit false

namespace RootHelper
open Posix Control

variable {sys : System} {fs : FileSystem}

/-- The open file `input` goes on with `bs`. -/
def Reading (fs : FileSystem) (input : Path) (f : Disk × Nat) (bs : Str) : Prop :=
  f.1.fs = fs ∧ ∃ content mode, fs.node input = some (.file content mode) ∧ content.drop f.2 = bs

theorem inputFile_read (hfair : sys.Fair) {input : Path} {f : Disk × Nat} {bs : Str} (count : Nat)
    (h : Reading fs input f bs) : ∃ k t, (0 < count → bs ≠ [] → 0 < k) ∧ k ≤ count ∧
      k ≤ bs.length ∧ (inputFile sys input).read count f = .ok ((k : Int),bs.take k) t ∧
      Reading fs input t (bs.drop k) := by
  obtain ⟨hfs,content,mode,hnode,hbs⟩ := h
  have hmoves := hfair.moves f.1.tick
  -- one call moves as much as it can
  let k := min (min (sys.transfer f.1.tick).toNat count) bs.length
  have hbytes : ((content.drop f.2).take count).take (sys.transfer f.1.tick).toNat = bs.take k := by
    rw [hbs,List.take_take,← List.take_eq_take_min]
  have hread : wp ((inputFile sys input).read count)
      (fun r t => r = ((k : Int),bs.take k) ∧ Reading fs input t (bs.drop k))
      (fun _ _ => False) f := by
    simp only [inputFile,wp_bind,wp_get,wp_run,System.read,Lens.fst_get,Lens.fst_set]
    rw [System.wp_perform_granted (hfair.grants _),hfs,Kernel.readEffect,hnode]
    simp only
    rw [if_neg (by omega),hbytes]
    simp only [System.settled,wp_bind,wp_modify,wp_pure]
    have hlen : (bs.take k).length = k := by
      rw [List.length_take]
      omega
    refine ⟨by rw [hlen],?_,content,mode,hnode,?_⟩
    · exact hfs
    · change content.drop (f.2 + (bs.take k).length) = bs.drop k
      rw [hlen,← List.drop_drop,hbs]
  obtain ⟨r,t,hr,rfl,ht⟩ := ok_of_wp hread
  refine ⟨k,t,fun hcount hne => ?_,by omega,by omega,hr,ht⟩
  have hlen := List.length_pos_of_ne_nil hne
  omega

theorem inputFile_yields (hfair : sys.Fair) (input : Path) :
    (inputFile sys input).Yields (Reading fs input) := fun count f bs hcount hbs hf => by
  obtain ⟨k,t,hk,hle,hlen,hread,hnext⟩ := inputFile_read hfair count hf
  exact ⟨k,t,hk hcount hbs,hle,hlen,hread,hnext⟩

theorem inputFile_end (hfair : sys.Fair) {input : Path} (count : Nat) (f : Disk × Nat)
    (hf : Reading fs input f []) :
    ∃ bytes t, (inputFile sys input).read count f = .ok (0,bytes) t := by
  obtain ⟨k,t,_,_,hlen,hread,_⟩ := inputFile_read hfair count hf
  obtain rfl : k = 0 := by simpa using hlen
  exact ⟨_,t,hread⟩

/-- The network connection has sent `cs` and stays open, as the local one does; the open file
stands at `f`. -/
structure Sending (f : Disk × Nat) (u : Transfer) (cs : Str) : Prop where
  file : (u.disk,u.offset) = f
  network : ∃ inp, Tells inp u.rcl cs
  client : ∃ inp bs, Tells inp u.cl bs

/-- So it is, and the file system is this. -/
def Uploading (fs : FileSystem) (u : Transfer) (cs : Str) : Prop :=
  ∃ f : Disk × Nat, f.1.fs = fs ∧ Sending f u cs

section Writes

variable {f : Disk × Nat}

theorem prints_network (c : Chunk) :
    Prints (Sending f) (networkDesc.writeAllOrExit c) c.encode := by
  intro u cs h
  obtain ⟨inp,hrcl⟩ := h.network
  change wp (Transfer.rclPart.run (connDesc.writeAllOrExit c)) _ _ u
  rw [wp_run]
  refine wp_mono (conn_writes inp c u.rcl cs hrcl) (fun _ k hk => ?_) fun _ _ h => h
  exact ⟨h.file,⟨inp,hk⟩,h.client⟩

theorem prints_tell (outDesc : Bool) (c : Chunk) : Prints (Sending f) (tell outDesc c) [] := by
  intro u cs h
  rw [List.append_nil]
  unfold tell
  cases outDesc with
  | false => exact h
  | true =>
    obtain ⟨inp,bs,hcl⟩ := h.client
    change wp (Transfer.clPart.run (connDesc.writeAllOrExit c)) _ _ u
    rw [wp_run]
    refine wp_mono (conn_writes inp c u.cl bs hcl) (fun _ k hk => ?_) fun _ _ h => h
    exact ⟨h.file,h.network,inp,_,hk⟩

end Writes

theorem prints_uploading {α : Type} {x : TransferM α} {bs : Str}
    (h : ∀ f : Disk × Nat, Prints (Sending f) x bs) : Prints (Uploading fs) x bs := by
  intro u cs hu
  obtain ⟨f,hfs,hu⟩ := hu
  exact wp_mono (h f u cs hu) (fun _ _ h => ⟨f,hfs,h⟩) fun _ _ h => h

theorem sum_chunks {chunkSize : Nat} (size : Nat) : (chunks chunkSize size).sum = size := by
  have hdiv := Nat.div_add_mod size chunkSize
  rw [Nat.mul_comm] at hdiv
  unfold chunks
  rw [List.sum_append,List.sum_replicate_nat]
  split
  · simp only [List.sum_nil]
    omega
  · simp only [List.sum_cons,List.sum_nil]
    omega

theorem pos_of_mem_chunks {chunkSize size n : Nat} (hpos : 0 < chunkSize)
    (h : n ∈ chunks chunkSize size) : 0 < n := by
  unfold chunks at h
  rcases List.mem_append.mp h with h | h
  · rw [List.eq_of_mem_replicate h]
    exact hpos
  · split at h
    · simp at h
    · rw [List.mem_singleton.mp h]
      omega

section Chunks

variable {outDesc : Bool} {input : Path} {l : List Nat} {bs cs : Str} {u : Transfer} {cur : Nat}
  {f : Disk × Nat}

theorem wp_uploadChunk {n : Nat} {Q : Unit → Transfer → Prop} {E : Stop → Transfer → Prop}
    (hfair : sys.Fair) (hn : 0 < n) (hle : n ≤ bs.length) (hread : Reading fs input f bs)
    (h : Sending f u cs) (hnext : ∀ u' f', Reading fs input f' (bs.drop n) →
      Sending f' u' (cs ++ bs.take n) → wp (uploadChunks sys outDesc input l (cur+n)) Q E u') :
    wp (uploadChunks sys outDesc input (n :: l) cur) Q E u := by
  have hlen : (bs.take n).length = n := by
    rw [List.length_take]
    omega
  have hsome : bs.take n ≠ [] := by
    rw [← List.length_pos_iff_ne_nil]
    omega
  have hfirst := (@inputFile_yields _ fs hfair input).readsSome (bs.take n) hsome f
    (bs.drop n) (by rwa [List.take_append_drop])
  rw [hlen] at hfirst
  have hfile : Transfer.filePart.get u = f := h.file
  rw [uploadChunks,wp_bind,wp_run,hfile]
  refine wp_mono hfirst (fun v f₁ hv => ?_) fun _ _ h => h.elim
  obtain ⟨rfl,hf₁⟩ := hv
  rw [wp_bind]
  refine wp_mono (prints_network (.bytes (bs.take n)) _ cs ⟨rfl,h.network,h.client⟩)
    (fun _ u₁ h₁ => ?_) fun _ _ h => h.elim
  simp only
  rw [wp_bind]
  refine wp_mono (prints_tell outDesc _ u₁ _ h₁) (fun _ u₂ h₂ => ?_) fun _ _ h => h.elim
  rw [List.append_nil] at h₂
  exact hnext u₂ f₁ hf₁ h₂

theorem wp_uploadChunks (hfair : sys.Fair) (hl : ∀ n ∈ l, 0 < n) (hle : l.sum ≤ bs.length)
    (hread : Reading fs input f bs) (h : Sending f u cs) :
    wp (uploadChunks sys outDesc input l cur)
      (fun _ u' => Uploading fs u' (cs ++ bs.take l.sum)) (fun _ _ => False) u := by
  induction l generalizing bs cs u cur f with
  | nil => exact ⟨f,hread.1,by simpa using h⟩
  | cons n l ih =>
    have hrest : ∀ m ∈ l, 0 < m := fun m hm => hl m (List.mem_cons_of_mem _ hm)
    rw [List.sum_cons] at hle ⊢
    refine wp_uploadChunk hfair (hl n List.mem_cons_self) (by omega) hread h fun u₁ f₁ hf₁ h₁ => ?_
    have hlater := @ih _ _ _ (cur + n) _ hrest (by rw [List.length_drop]; omega) hf₁ h₁
    refine wp_mono hlater (fun _ u₂ h₂ => ?_) fun _ _ h => h
    simpa [List.take_add] using h₂

theorem uploadChunks_exits (hfair : sys.Fair) (hl : ∀ n ∈ l, 0 < n) (hshort : bs.length < l.sum)
    (hread : Reading fs input f bs) (h : Sending f u cs) :
    wp (uploadChunks sys outDesc input l cur) (fun _ _ => False)
      (fun e u' => e = .threadExit ∧ ∃ part, part <+: bs ∧ u'.rcl.bytes = cs ++ part) u := by
  induction l generalizing bs cs u cur f with
  | nil => simp at hshort
  | cons n l ih =>
    have hrest : ∀ m ∈ l, 0 < m := fun m hm => hl m (List.mem_cons_of_mem _ hm)
    rw [List.sum_cons] at hshort
    by_cases hle : n ≤ bs.length
    · refine wp_uploadChunk hfair (hl n List.mem_cons_self) hle hread h fun u₁ f₁ hf₁ h₁ => ?_
      refine wp_mono (ih hrest (by rw [List.length_drop]; omega) hf₁ h₁) (fun _ _ h => h.elim)
        fun e u₂ h₂ => ?_
      obtain ⟨rfl,part,⟨tail,hpart⟩,hsent⟩ := h₂
      refine ⟨rfl,bs.take n ++ part,⟨tail,?_⟩,by rw [hsent,List.append_assoc]⟩
      rw [List.append_assoc,hpart,List.take_append_drop]
    · have hexit := (@inputFile_yields _ fs hfair input).exits (inputFile_end hfair)
        (fun s => ⟨s,rfl⟩) (Nat.lt_of_not_le hle) hread
      have hfile : Transfer.filePart.get u = f := h.file
      obtain ⟨inp,hsent⟩ := h.network
      rw [uploadChunks,wp_bind,wp_run,hfile]
      refine wp_mono hexit (fun _ _ h => h.elim) fun e f₁ he => ⟨he,[],List.nil_prefix,?_⟩
      rw [List.append_nil]
      exact hsent.2.2.2

end Chunks

section Item

variable {outDesc : Bool} {source destination : Str} {input : Path} {content cs : Str}
  {mode size : Nat} {u : Transfer}

theorem Uploading.quiet (h : Uploading fs u cs) {d : Disk} (hd : Quiet u.disk d) :
    Uploading fs { u with disk := d } cs := by
  obtain ⟨f,hfs,hfile,hnetwork,hclient⟩ := h
  subst hfile
  exact ⟨(d,u.offset),hd.fs_eq.trans hfs,rfl,hnetwork,hclient⟩

theorem Uploading.fs_eq (h : Uploading fs u cs) : u.disk.fs = fs := by
  obtain ⟨f,hfs,hfile,_⟩ := h
  subst hfile
  exact hfs

theorem wp_uploadOpened (hfair : sys.Fair) (hopen : sys.follow fs source = .ok input)
    (hnode : fs.node input = some (.file content mode)) (h : Uploading fs u cs)
    {Q : Int → Transfer → Prop} {E : Stop → Transfer → Prop}
    (hnext : ∀ u' f', Reading fs input f' content →
      Sending f' u' (cs ++ fileHeader destination size) →
        wp (do
          uploadChunks sys outDesc input (chunks REMOTE_IO_CHUNK_SIZE size) 0
          pure 0) Q E u') :
    wp (OSUploadRegularFileWithProgress sys source destination size outDesc) Q E u := by
  have hfs := h.fs_eq
  rw [OSUploadRegularFileWithProgress,wp_bind,Transfer.withDisk,wp_run,System.openRead]
  change wp (sys.perform _ _) _ _ u.disk
  have hhas : fs.has input := FileSystem.has_iff.mpr ⟨_,hnode⟩
  have heffect : sys.openReadEffect source u.disk.fs = .ok (input,none) := by
    simp [Kernel.openReadEffect,hfs,hopen,hhas,bind,Except.bind]
  rw [System.wp_perform_granted (hfair.grants _),heffect]
  simp only [System.settled]
  have hquiet : Quiet u.disk (u.disk.done ⟨.openRead source,none⟩) :=
    grown_done fun _ hc => by simp at hc
  obtain ⟨f,hf,hfile,hnetwork,hclient⟩ := h.quiet hquiet
  rw [wp_bind,Transfer.rewind,wp_modify,wp_bind]
  have hstart : Sending (f.1,0) { u with disk := u.disk.done ⟨.openRead source,none⟩, offset := 0 } cs := by
    refine ⟨?_,hnetwork,hclient⟩
    rw [← hfile]
  refine wp_mono (prints_network _ _ cs hstart) (fun _ u₁ h₁ => ?_) fun _ _ h => h.elim
  rw [wp_bind]
  refine wp_mono (prints_tell outDesc _ u₁ _ h₁) (fun _ u₂ h₂ => ?_) fun _ _ h => h.elim
  rw [List.append_nil] at h₂
  exact hnext u₂ (f.1,0) ⟨hf,content,mode,hnode,rfl⟩ h₂

theorem wp_OSUpload (hfair : sys.Fair) (hopen : sys.follow fs source = .ok input)
    (hnode : fs.node input = some (.file content mode)) (hsize : size ≤ content.length)
    (h : Uploading fs u cs) :
    wp (OSUploadRegularFileWithProgress sys source destination size outDesc)
      (fun r u' => r = 0 ∧
        Uploading fs u' (cs ++ (fileHeader destination size ++ content.take size)))
      (fun _ _ => False) u := by
  refine wp_uploadOpened hfair hopen hnode h fun u₁ f₁ hf₁ h₁ => ?_
  have hpos : ∀ n ∈ chunks REMOTE_IO_CHUNK_SIZE size, 0 < n := fun n hn =>
    pos_of_mem_chunks (by decide) hn
  rw [wp_bind]
  refine wp_mono (wp_uploadChunks hfair hpos (by rwa [sum_chunks]) hf₁ h₁) (fun _ u₂ h₂ => ?_)
    fun _ _ h => h
  rw [sum_chunks,List.append_assoc] at h₂
  exact ⟨rfl,h₂⟩

theorem OSUpload_exits (hfair : sys.Fair) (hopen : sys.follow fs source = .ok input)
    (hnode : fs.node input = some (.file content mode)) (hsize : content.length < size)
    (h : Uploading fs u cs) :
    wp (OSUploadRegularFileWithProgress sys source destination size outDesc)
      (fun _ _ => False) (fun _ _ => True) u := by
  refine wp_uploadOpened hfair hopen hnode h fun u₁ f₁ hf₁ h₁ => ?_
  have hpos : ∀ n ∈ chunks REMOTE_IO_CHUNK_SIZE size, 0 < n := fun n hn =>
    pos_of_mem_chunks (by decide) hn
  rw [wp_bind]
  exact wp_mono (uploadChunks_exits hfair hpos (by rwa [sum_chunks]) hf₁ h₁)
    (fun _ _ h => h.elim) fun _ _ _ => trivial

theorem length_fileHeader (destination : Str) (size size' : Nat) :
    (fileHeader destination size).length = (fileHeader destination size').length := by
  simp [fileHeader]

/-- What stands at a path that is taken for a file is as long as what it leads to, unless it is a
link. -/
theorem nodeSize_of_file {n : Node} (hn : Kernel.nodeAt fs (sys.glance fs source) = .ok n)
    (hdir : n.isDir = false) (hopen : sys.follow fs source = .ok input)
    (hnode : fs.node input = some (.file content mode)) :
    nodeSize n = content.length ↔ ∀ q t, sys.glance fs source = .ok q →
      fs.node q = some (.link t) → t.length = content.length := by
  obtain ⟨p,hp,hpn⟩ := Kernel.nodeAt_ok hn
  cases n with
  | dir m => simp [Node.isDir] at hdir
  | link t =>
    refine ⟨fun h q t' hq ht' => ?_,fun h => h p t hp hpn⟩
    rw [hp] at hq
    obtain rfl := Except.ok.inj hq
    rw [hpn] at ht'
    obtain rfl : t = t' := by simpa using ht'
    exact h
  | file content' m =>
    have hfollow := Kernel.follow_of_glance hp hpn (by simp)
    rw [hopen] at hfollow
    obtain rfl := Except.ok.inj hfollow
    rw [hnode] at hpn
    obtain ⟨rfl,_⟩ : content = content' ∧ mode = m := by simpa using hpn
    refine iff_of_true rfl fun q t hq ht => ?_
    rw [hp] at hq
    obtain rfl := Except.ok.inj hq
    rw [hnode] at ht
    simp at ht

/-- An entry that is taken for a file and opens for reading is sent as it is, after its size, just
when it is not a link, or the text of the link is as long as the file it leads to. -/
theorem upload_item_iff (hfair : sys.Fair) (depth : Nat)
    (hclass : efdAt sys.toKernel fs source = .file) (hopen : sys.follow fs source = .ok input)
    (hnode : fs.node input = some (.file content mode)) (h : Uploading fs u cs) :
    (∃ ret u', genericUploadBasicRecursiveImplWithProgress sys outDesc (depth+1) source destination u =
        .ok ret u' ∧ u'.rcl.bytes = cs ++ (fileHeader destination content.length ++ content)) ↔
      ∀ q t, sys.glance fs source = .ok q → fs.node q = some (.link t) →
        t.length = content.length := by
  obtain ⟨n,hn,hdir⟩ : ∃ n, Kernel.nodeAt fs (sys.glance fs source) = .ok n ∧ n.isDir = false := by
    unfold efdAt at hclass
    cases hn : Kernel.nodeAt fs (sys.glance fs source) with
    | error e => simp [hn] at hclass
    | ok n => cases n <;> simp_all [Node.isDir]
  rw [← nodeSize_of_file hn hdir hopen hnode]
  have hfs := h.fs_eq
  -- the recursion comes to the branch for files
  have hbranch : ∀ {Q : Int → Transfer → Prop} {E : Stop → Transfer → Prop},
      (∀ u₁, Uploading fs u₁ cs → wp (do
        let ret_ ← OSUploadRegularFileWithProgress sys source destination (nodeSize n) outDesc
        tell outDesc (.u64 maxuint)
        pure ret_) Q E u₁) →
      wp (genericUploadBasicRecursiveImplWithProgress sys outDesc (depth+1) source destination) Q E
        u := by
    intro Q E hfile
    rw [genericUploadBasicRecursiveImplWithProgress,wp_bind,Transfer.withDisk,wp_run]
    change wp (osStatSize sys source) _ _ u.disk
    refine wp_osStatSize sys (fun e d' _ he => ?_) fun n' letter d' hd' hn' hletter => ?_
    · rw [hfs,hn] at he
      cases he
    · rw [hfs,hn] at hn'
      obtain rfl := Except.ok.inj hn'
      have hne : letter ≠ 'd' := fun hd => by simp [hletter.mp hd] at hdir
      split
      · rename_i heq
        simp at heq
      · rename_i heq
        simp only [Option.some.injEq,Prod.mk.injEq] at heq
        exact absurd heq.1 hne
      · rename_i heq
        simp only [Option.some.injEq,Prod.mk.injEq] at heq
        rw [← heq.2]
        exact hfile _ (h.quiet hd')
  rcases Nat.lt_or_ge content.length (nodeSize n) with hlong | hle
  · -- more is asked for than there is
    have hexit : wp (genericUploadBasicRecursiveImplWithProgress sys outDesc (depth+1) source
        destination) (fun _ _ => False) (fun _ _ => True) u :=
      hbranch fun u₁ h₁ => by
        rw [wp_bind]
        exact wp_mono (OSUpload_exits hfair hopen hnode hlong h₁) (fun _ _ h => h.elim)
          fun _ _ h => h
    refine iff_of_false (fun hrun => ?_) (by omega)
    obtain ⟨ret,u',hrun,_⟩ := hrun
    rwa [wp_of_ok hrun] at hexit
  · have hsent : wp (genericUploadBasicRecursiveImplWithProgress sys outDesc (depth+1) source
        destination) (fun _ u' => u'.rcl.bytes =
          cs ++ (fileHeader destination (nodeSize n) ++ content.take (nodeSize n)))
        (fun _ _ => False) u :=
      hbranch fun u₁ h₁ => by
        rw [wp_bind]
        refine wp_mono (wp_OSUpload hfair hopen hnode hle h₁) (fun r u₂ h₂ => ?_) fun _ _ h => h
        rw [wp_bind]
        refine wp_mono (prints_uploading (fun _ => prints_tell outDesc _) u₂ _ h₂.2)
          (fun _ u₃ h₃ => ?_) fun _ _ h => h
        obtain ⟨f,_,_,⟨_,hrcl⟩,_⟩ := h₃
        rw [List.append_nil] at hrcl
        exact hrcl.2.2.2
    obtain ⟨ret,u',hrun,hbytes⟩ := ok_of_wp hsent
    refine ⟨fun hall => ?_,fun heq => ⟨ret,u',hrun,?_⟩⟩
    · obtain ⟨ret',u'',hrun',hbytes'⟩ := hall
      rw [hrun] at hrun'
      cases hrun'
      rw [hbytes] at hbytes'
      have hlen := congrArg List.length (List.append_cancel_left hbytes')
      have hheader := length_fileHeader destination (nodeSize n) content.length
      simp only [List.length_append,List.length_take] at hlen
      omega
    · rw [hbytes,heq,List.take_length]

end Item

def uploadFrom (fs : FileSystem) : Transfer := ⟨⟨fs,[],0,0⟩,0,⟨[],[],none,false⟩,⟨[],[],none,false⟩⟩

theorem uploading_uploadFrom (fs : FileSystem) : Uploading fs (uploadFrom fs) [] :=
  ⟨_,rfl,rfl,⟨[],rfl,rfl,rfl,rfl⟩,[],[],rfl,rfl,rfl,rfl⟩

/-- A file of three bytes, a link to it of one letter, and one of five. -/
def linkedFile : FileSystem :=
  .ofEntries [([],.dir 0o755),([text ['a']],.file (text ['x','y','z']) 0o644),
    ([text ['l']],.link (text ['a'])),([text ['m']],.link (text ['.','/','.','/','a']))] (by decide)

theorem upload_item_regular :
    ∃ ret u', genericUploadBasicRecursiveImplWithProgress .calm true 1 (text ['/','a'])
        (text ['/','b']) (uploadFrom linkedFile) = .ok ret u' ∧
      u'.rcl.bytes = fileHeader (text ['/','b']) 3 ++ text ['x','y','z'] := by
  have hglance : System.calm.glance linkedFile (text ['/','a']) = .ok [text ['a']] := by
    decide +kernel
  have hfile : linkedFile.node [text ['a']] = some (.file (text ['x','y','z']) 0o644) := by
    decide +kernel
  refine (upload_item_iff System.calm_fair 0 (by decide +kernel)
    (by decide +kernel) hfile (uploading_uploadFrom linkedFile)).mpr fun q t hq ht => ?_
  rw [hglance] at hq
  obtain rfl := Except.ok.inj hq
  rw [hfile] at ht
  simp at ht

/-- Through the one link a byte of the file is sent; at the other the thread exits. -/
theorem upload_item_linked :
    wp (genericUploadBasicRecursiveImplWithProgress .calm true 1 (text ['/','l']) (text ['/','b']))
        (fun _ u => u.rcl.bytes = fileHeader (text ['/','b']) 1 ++ text ['x']) (fun _ _ => False)
        (uploadFrom linkedFile) ∧
      wp (genericUploadBasicRecursiveImplWithProgress .calm true 1 (text ['/','m'])
        (text ['/','b'])) (fun _ _ => False) (fun e _ => e = .threadExit)
        (uploadFrom linkedFile) := by
  decide +kernel

end RootHelper
