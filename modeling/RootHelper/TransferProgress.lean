import RootHelper.Control.Emissions
import RootHelper.DownloadRoundTrip

/-!
What the local client is told of a transfer. It is counted along with what goes over the network, so
that from the numbers it gets it can tell how far every file has come.
-/

set_option autoImplicit false

namespace RootHelper
open Posix Control

/-- What is told after each chunk: how much there is by then. -/
def cumulative : List Nat → Nat → List Nat
  | [], _ => []
  | n :: l, cur => (cur + n) :: cumulative l (cur + n)

def numberBytes (l : List Nat) : Str := l.flatMap (littleEndian 8)

/-- What is told of a file: its size, how much there is after each chunk, and its end. -/
def fileNumbers (size : Nat) : List Nat :=
  size :: (cumulative (chunks REMOTE_IO_CHUNK_SIZE size) 0 ++ [maxuint])

theorem numberBytes_append (l l' : List Nat) : numberBytes (l ++ l') = numberBytes l ++ numberBytes l' :=
  List.flatMap_append

theorem cumulative_rises {l : List Nat} (hl : ∀ n ∈ l, 0 < n) (cur : Nat) :
    (cumulative l cur).Pairwise (· < ·) ∧ (∀ m ∈ cumulative l cur, cur < m ∧ m ≤ cur + l.sum) ∧
      (l ≠ [] → (cumulative l cur).getLast? = some (cur + l.sum)) := by
  induction l generalizing cur with
  | nil => simp [cumulative]
  | cons n l ih =>
    have hn := hl n List.mem_cons_self
    obtain ⟨hpair,hbounds,hlast⟩ := ih (fun m hm => hl m (List.mem_cons_of_mem _ hm)) (cur + n)
    refine ⟨List.pairwise_cons.mpr ⟨fun m hm => (hbounds m hm).1,hpair⟩,fun m hm => ?_,fun _ => ?_⟩
    · rw [List.sum_cons]
      rcases List.mem_cons.mp hm with rfl | hm
      · omega
      · have hm := hbounds m hm
        omega
    · rw [cumulative,List.sum_cons]
      cases l with
      | nil => simp [cumulative]
      | cons m l =>
        rw [cumulative,List.getLast?_cons_cons,← cumulative,hlast (by simp)]
        simp [Nat.add_assoc]

/-- The numbers that are told while a file comes rise to its size. -/
theorem fileNumbers_rise (size : Nat) : ∃ l, fileNumbers size = size :: (l ++ [maxuint]) ∧
    l.Pairwise (· < ·) ∧ (∀ m ∈ l, 0 < m ∧ m ≤ size) ∧ (0 < size → l.getLast? = some size) := by
  obtain ⟨hpair,hbounds,hlast⟩ := cumulative_rises (fun n hn => pos_of_mem_chunks (by decide) hn)
    (l := chunks REMOTE_IO_CHUNK_SIZE size) 0
  rw [sum_chunks,Nat.zero_add] at hlast
  simp only [sum_chunks,Nat.zero_add] at hbounds
  refine ⟨_,rfl,hpair,hbounds,fun hsize => hlast fun hnil => ?_⟩
  have hsum := @sum_chunks REMOTE_IO_CHUNK_SIZE size
  rw [hnil] at hsum
  exact absurd hsum (Nat.ne_of_lt hsize)

namespace Descriptor

variable {ε σ : Type} {d : Descriptor ε σ}

/-- A read that has a result gives as many bytes as it says, and not more than are asked for. -/
def Honest (d : Descriptor ε σ) : Prop := ∀ count s, wp (d.read count)
  (fun r _ => 0 < r.1 → r.1 = r.2.length ∧ r.2.length ≤ count) (fun _ _ => True) s

theorem Honest.readAllLoop (h : d.Honest) {count turns remaining : Nat} {buf : Str}
    (hsum : buf.length + remaining = count) (s : σ) :
    wp (d.readAllLoop count turns remaining buf)
      (fun r _ => r.1 ≤ 0 ∧ r.2.length ≤ count ∨ r.1 = count ∧ r.2.length = count) (fun _ _ => True) s := by
  induction turns generalizing remaining buf s with
  | zero => trivial
  | succ turns ih =>
    rw [Descriptor.readAllLoop,wp_bind]
    refine wp_mono (h remaining s) (fun r t hr => ?_) fun _ _ _ => trivial
    obtain ⟨curr,bytes⟩ := r
    simp only at hr ⊢
    split
    · exact .inl ⟨by assumption,by dsimp only; omega⟩
    · obtain ⟨hcurr,hle⟩ := hr (by omega)
      have hnat : curr.toNat = bytes.length := by omega
      split
      · exact .inr ⟨rfl,by rw [List.length_append]; omega⟩
      · exact ih (by rw [List.length_append]; omega) t

theorem Honest.readAllOrExit (h : d.Honest) (count : Nat) (s : σ) :
    wp (d.readAllOrExit count) (fun buf _ => buf.length = count) (fun _ _ => True) s := by
  rw [Descriptor.readAllOrExit,wp_bind]
  refine wp_mono (h.readAllLoop (by simp) s) (fun r t hr => ?_) fun _ _ _ => trivial
  obtain ⟨readBytes,buf⟩ := r
  simp only at hr ⊢
  split
  · rw [wp_bind]
    exact wp_trivial (fun _ _ => trivial) fun _ _ => trivial
  · rename_i hall
    change buf.length = count
    omega

end Descriptor

/-! ### Uploads -/

/-- What comes of one source: a file, an empty directory, or a file that is not sent. -/
inductive UploadEntry where
  | file (destination content : Str)
  | dir (dest_path : Str)
  | unreadable
  deriving DecidableEq, Repr

namespace UploadEntry

def sent : UploadEntry → Str
  | file destination content => fileHeader destination content.length ++ content
  | dir dest_path => dirItem dest_path
  | unreadable => []

def told : UploadEntry → List Nat
  | file _ content => fileNumbers content.length
  | dir _ => []
  | unreadable => [maxuint]

end UploadEntry

/-- What has been sent to the other party and told the local client since `u`. -/
def After (u u' : Transfer) (sent : Str) (told : List Nat) : Prop :=
  u'.rcl.bytes = u.rcl.bytes ++ sent ∧ u'.cl.bytes = u.cl.bytes ++ numberBytes told

instance : AddsUp After where
  none _ := by simp [After,numberBytes]
  both h h' := by
    refine ⟨?_,?_⟩
    · rw [h'.1,h.1,List.append_assoc]
    · rw [h'.2,h.2,numberBytes_append,List.append_assoc]

/-- Where nothing is written to either connection. -/
def OffWire (u u' : Transfer) : Prop := u'.rcl.out = u.rcl.out ∧ u'.cl.out = u.cl.out

instance : Std.Refl OffWire := ⟨fun _ => ⟨rfl,rfl⟩⟩

instance : IsTrans Transfer OffWire := ⟨fun _ _ _ h h' => ⟨h'.1.trans h.1,h'.2.trans h.2⟩⟩

theorem OffWire.after {u u' : Transfer} (h : OffWire u u') : After u u' [] [] := by
  simp [After,Conn.bytes,numberBytes,h.1,h.2]

section Uploads

variable {sys : System} {α β : Type}

theorem offWire_disk (x : DiskM α) : Moves OffWire (Transfer.withDisk x) :=
  Moves.run (T := fun _ _ => True) (fun _ => wp_trivial (fun _ _ => trivial) fun _ _ => trivial)
    fun _ _ _ => ⟨rfl,rfl⟩

theorem offWire_file (x : EStateM Stop (Disk × Nat) α) : Moves OffWire (Transfer.filePart.run x) :=
  Moves.run (T := fun _ _ => True) (fun _ => wp_trivial (fun _ _ => trivial) fun _ _ => trivial)
    fun _ _ _ => ⟨rfl,rfl⟩

theorem conn_read_out (count : Nat) : Moves (fun k k' : Conn => k'.out = k.out) (readAllOrExit count) := by
  intro k
  simp only [Leaves,readAllOrExit,wp_bind,wp_get,wp_ite,wp_pure,wp_set,wp_throw]
  exact ⟨fun _ => trivial,fun _ => ⟨fun _ => trivial,fun _ => trivial⟩⟩

theorem offWire_clRead (count : Nat) : Moves OffWire (clDesc.readAllOrExit count) :=
  (conn_read_out count).run fun _ _ h => ⟨rfl,h⟩

theorem offWire_pairs (turns : Nat) : Moves OffWire (clDesc.receivePathPairsList turns) := by
  have pair : Moves OffWire clDesc.readPairOfStringsWithPairOfLens := by
    refine (offWire_clRead 2).map.bind fun len₀ => (offWire_clRead 2).map.bind fun len₁ => ?_
    refine Moves.ite (moves_pure _) ?_
    exact (offWire_clRead _).bind fun _ => (offWire_clRead _).bind fun _ => moves_pure _
  induction turns with
  | zero => exact moves_throw _
  | succ turns ih =>
    exact pair.bind fun f => Moves.ite (moves_pure _) (ih.bind fun _ => moves_pure _)

theorem emits_beside {x : TransferM β} {f : β → TransferM α} {P : α → Str → List Nat → Prop}
    (hx : Moves OffWire x) (hf : ∀ b, Emits After (f b) P) : Emits After (x >>= f) P :=
  (emits_aside (fun _ _ => OffWire.after) hx).before hf

theorem wp_sends (c : Chunk) (k : Conn) :
    wp (writeAllOrExit c) (fun _ k' => k'.bytes = k.bytes ++ c.encode) (fun _ _ => True) k := by
  by_cases hc : c.encode = []
  · rw [writeAllOrExit,wp_bind,wp_get,if_pos hc,hc,List.append_nil]
    rfl
  · rw [wp_writeAllOrExit_iff hc]
    exact ⟨fun _ => by simp [Conn.sent,Conn.bytes],fun _ => trivial⟩

theorem emits_network (c : Chunk) :
    Emits After (networkDesc.writeAllOrExit c) fun _ sent told => sent = c.encode ∧ told = [] := by
  intro u
  change wp (Transfer.rclPart.run (writeAllOrExit c)) _ _ u
  rw [wp_run]
  refine wp_mono (wp_sends c u.rcl) (fun _ k hk => ?_) fun _ _ h => h
  exact ⟨c.encode,[],⟨rfl,rfl⟩,hk,by simp [numberBytes,Transfer.rclPart]⟩

theorem emits_tell (n : Nat) :
    Emits After (tell true (.u64 n)) fun _ sent told => sent = [] ∧ told = [n] := by
  intro u
  change wp (Transfer.clPart.run (writeAllOrExit (.u64 n))) _ _ u
  rw [wp_run]
  refine wp_mono (wp_sends (.u64 n) u.cl) (fun _ k hk => ?_) fun _ _ h => h
  refine ⟨[],[n],⟨rfl,rfl⟩,by simp [Transfer.clPart],?_⟩
  change k.bytes = _
  rw [hk]
  simp [numberBytes,Chunk.encode]

theorem inputFile_honest (input : Path) : (inputFile sys input).Honest := by
  intro count f
  simp only [inputFile,wp_bind,wp_get,wp_run,System.read,Lens.fst_get,Lens.fst_set]
  refine System.wp_perform (fun e => ?_) fun bytes ch hread => ?_
  · intro hpos
    simp at hpos
  · simp only [wp_bind,wp_modify,wp_pure]
    refine fun _ => ⟨trivial,?_⟩
    unfold Kernel.readEffect at hread
    split at hread
    · split at hread
      · simp at hread
      · obtain ⟨rfl,-⟩ := Prod.mk.inj (Except.ok.inj hread)
        simp only [List.length_take]
        omega
    · simp at hread
    · simp at hread

theorem emits_chunks (input : Path) (l : List Nat) (cur : Nat) :
    Emits After (uploadChunks sys true input l cur) fun _ sent told =>
      sent.length = l.sum ∧ told = cumulative l cur := by
  induction l generalizing cur with
  | nil => exact emits_pure ⟨rfl,rfl⟩
  | cons n l ih =>
    have hread : Emits After (Transfer.filePart.run ((inputFile sys input).readAllOrExit n))
        fun v sent told => v.length = n ∧ sent = [] ∧ told = [] := by
      intro u
      have hlen : wp (Transfer.filePart.run ((inputFile sys input).readAllOrExit n))
          (fun v _ => v.length = n) (fun _ _ => True) u := by
        rw [wp_run]
        exact (inputFile_honest input).readAllOrExit n _
      refine wp_mono (wp_and (offWire_file _ u) hlen) (fun v u' hv => ?_) fun _ _ _ => trivial
      exact ⟨[],[],⟨hv.2,rfl,rfl⟩,hv.1.after⟩
    refine hread.bind fun v _ _ ⟨hv,hsent,htold⟩ => ?_
    subst hsent htold
    refine Emits.before (emits_network (.bytes v)) fun _ => ?_
    refine Emits.before (emits_tell (cur + n)) fun _ => ?_
    refine (ih (cur + n)).mono fun _ sent told ⟨hlen,htold⟩ => ⟨?_,?_⟩
    · simp [hlen,show (Chunk.bytes v).encode = v from rfl,hv]
    · simp [cumulative,htold]

theorem emits_file (source destination : Str) (size : Nat) :
    Emits After (OSUploadRegularFileWithProgress sys source destination size true) fun _ sent told =>
      sent = [] ∧ told = [] ∨ ∃ content : Str, content.length = size ∧
        sent = fileHeader destination size ++ content ∧
        told = size :: cumulative (chunks REMOTE_IO_CHUNK_SIZE size) 0 := by
  refine emits_beside (offWire_disk _) fun opened => ?_
  cases opened with
  | error e => exact emits_pure (.inl ⟨rfl,rfl⟩)
  | ok input =>
    refine emits_beside (moves_modify fun _ => ⟨rfl,rfl⟩) fun _ => ?_
    refine Emits.before (emits_network _) fun _ => ?_
    refine Emits.before (emits_tell size) fun _ => ?_
    refine (emits_chunks input _ 0).bind fun _ content told ⟨hlen,htold⟩ => emits_pure (.inr ?_)
    rw [sum_chunks] at hlen
    exact ⟨content,hlen,by simp [Chunk.encode],by simp [htold]⟩

/-- Both outputs are those of the same entries. -/
def OfEntries (sent : Str) (told : List Nat) : Prop :=
  ∃ entries : List UploadEntry, sent = entries.flatMap UploadEntry.sent ∧
    told = entries.flatMap UploadEntry.told

theorem OfEntries.append {sent sent' : Str} {told told' : List Nat} (h : OfEntries sent told)
    (h' : OfEntries sent' told') : OfEntries (sent ++ sent') (told ++ told') := by
  obtain ⟨entries,rfl,rfl⟩ := h
  obtain ⟨entries',rfl,rfl⟩ := h'
  exact ⟨entries ++ entries',by simp,by simp⟩

theorem ofEntries_nil : OfEntries [] [] := ⟨[],rfl,rfl⟩

theorem ofEntries_one (e : UploadEntry) : OfEntries e.sent e.told := ⟨[e],by simp,by simp⟩

theorem emits_uploadEntries {upload : Str → Str → TransferM Int}
    (hupload : ∀ src dest, Emits After (upload src dest) fun _ => OfEntries) (src_path dest_path : Str)
    (es : List (Str × Name)) (ret : Int) :
    Emits After (uploadEntries sys upload src_path dest_path es ret) fun _ => OfEntries := by
  induction es generalizing ret with
  | nil => exact emits_pure ofEntries_nil
  | cons e es ih =>
    refine emits_beside (offWire_disk _) fun _ => ?_
    refine (hupload _ _).bind fun ret_ sent told h => ?_
    exact (ih _).mono fun _ _ _ h' => h.append h'

theorem emits_upload (depth : Nat) (src_path dest_path : Str) :
    Emits After (genericUploadBasicRecursiveImplWithProgress sys true depth src_path dest_path)
      fun _ => OfEntries := by
  induction depth generalizing src_path dest_path with
  | zero => exact fun _ => trivial
  | succ depth ih =>
    refine emits_beside (offWire_disk _) fun found => ?_
    have file : ∀ size, Emits After (do
        let ret_ ← OSUploadRegularFileWithProgress sys src_path dest_path size true
        tell true (.u64 maxuint)
        pure ret_) fun _ => OfEntries := by
      intro size
      refine (emits_file src_path dest_path size).bind fun ret_ sent told h => ?_
      refine (emits_tell maxuint).bind fun _ _ _ ⟨hsent,htold⟩ => emits_pure ?_
      subst hsent htold
      rcases h with ⟨rfl,rfl⟩ | ⟨content,rfl,rfl,rfl⟩
      · exact ofEntries_one .unreadable
      · have hone := ofEntries_one (.file dest_path content)
        simpa [UploadEntry.sent,UploadEntry.told,fileNumbers] using hone
    have dir : Emits After (do
        let entries ← Transfer.withDisk (openPlain sys src_path)
        let ret ← uploadEntries sys (genericUploadBasicRecursiveImplWithProgress sys true depth)
          src_path dest_path (entries.getD []) 0
        if entries.getD [] = [] then networkDesc.writeAllOrExit (.bytes (dirItem dest_path))
        else pure ()
        pure ret) fun _ => OfEntries := by
      refine emits_beside (offWire_disk _) fun entries => ?_
      refine (emits_uploadEntries ih src_path dest_path _ 0).bind fun ret sent told h => ?_
      split
      · refine (emits_network _).bind fun _ _ _ ⟨hsent,htold⟩ => emits_pure ?_
        subst hsent htold
        have hone := h.append (ofEntries_one (.dir dest_path))
        simpa [UploadEntry.sent,UploadEntry.told,Chunk.encode] using hone
      · exact (emits_pure (P := fun _ => OfEntries) ofEntries_nil).bind fun _ _ _ h' =>
          emits_pure (by simpa using h.append h')
    split
    · exact emits_pure ofEntries_nil
    · exact dir
    · exact file _

theorem emits_uploadSelection (depth : Nat) (v : List (Str × Str)) :
    Emits After (uploadSelection sys depth v) fun _ => OfEntries := by
  induction v with
  | nil => exact emits_pure ofEntries_nil
  | cons item v ih =>
    refine (emits_upload depth item.1 item.2).bind fun _ _ _ h => ?_
    exact ih.mono fun _ _ _ h' => h.append h'

/-- Whatever the file system is and whichever of its files cannot be read, an upload that comes to its
end has told the local client of each file that was sent, in that order, how it got there, and of each
that was not only its end; before them it tells the same totals as it sends. -/
theorem upload_told (sys : System) (u : Transfer) :
    wp (client_upload sys) (fun _ u' => ∃ (tFiles tSize : Nat) (entries : List UploadEntry),
      u'.rcl.bytes = u.rcl.bytes ++ (ACTION_UPLOAD :: (littleEndian 8 tFiles ++ littleEndian 8 tSize ++
        entries.flatMap UploadEntry.sent ++ [0xFF])) ∧
      u'.cl.bytes = u.cl.bytes ++ numberBytes ([tFiles,tSize] ++ entries.flatMap UploadEntry.told ++
        [maxuint_2])) (fun _ _ => True) u := by
  have whole : Emits After (client_upload sys) fun _ sent told => ∃ (tFiles tSize : Nat)
      (entries : List UploadEntry), sent = ACTION_UPLOAD :: (littleEndian 8 tFiles ++
        littleEndian 8 tSize ++ entries.flatMap UploadEntry.sent ++ [0xFF]) ∧
      told = [tFiles,tSize] ++ entries.flatMap UploadEntry.told ++ [maxuint_2] := by
    refine emits_beside moves_get fun s => emits_beside (offWire_pairs _) fun v => ?_
    dsimp only
    refine emits_beside (offWire_disk _) fun counts => ?_
    refine Emits.before (emits_network _) fun _ => ?_
    refine Emits.before (emits_network _) fun _ => ?_
    refine Emits.before (emits_network _) fun _ => ?_
    refine Emits.before (emits_tell _) fun _ => ?_
    refine Emits.before (emits_tell _) fun _ => ?_
    refine (emits_uploadSelection _ v).bind fun _ _ _ ⟨entries,hsent,htold⟩ => ?_
    subst hsent htold
    refine Emits.before (emits_tell _) fun _ => ?_
    refine (emits_network _).mono fun _ _ _ ⟨hsent,htold⟩ => ⟨counts.tFiles,counts.tSize,entries,?_,?_⟩
    · simp [hsent,Chunk.encode]
    · simp [htold]
  refine wp_mono (whole u) (fun _ u' h => ?_) fun _ _ h => h
  obtain ⟨sent,told,⟨tFiles,tSize,entries,rfl,rfl⟩,hsent,htold⟩ := h
  exact ⟨tFiles,tSize,entries,hsent,htold⟩

end Uploads

/-! ### Downloads -/

/-- What is told of an item that has come: of a directory nothing. -/
def Item.told (item : Item) : List Nat :=
  match item.content with
  | some bytes => fileNumbers bytes.length
  | none => []

/-- What has been heard of the other party and told the local client since `w`. -/
def Since (w w' : Transfer) (heard : Str) (told : List Nat) : Prop :=
  w.rcl.inp = heard ++ w'.rcl.inp ∧ w'.cl.bytes = w.cl.bytes ++ numberBytes told

instance : AddsUp Since where
  none _ := by simp [Since,numberBytes]
  both h h' := by
    refine ⟨?_,?_⟩
    · rw [h.1,h'.1,List.append_assoc]
    · rw [h'.2,h.2,numberBytes_append,List.append_assoc]

section Downloads

variable {sys : System} {α β : Type}

/-- The stream and the local connection stay as they are. -/
def Off (w w' : Transfer) : Prop := w'.rcl.inp = w.rcl.inp ∧ w'.cl.out = w.cl.out

instance : Std.Refl Off := ⟨fun _ => ⟨rfl,rfl⟩⟩

instance : IsTrans Transfer Off := ⟨fun _ _ _ h h' => ⟨h'.1.trans h.1,h'.2.trans h.2⟩⟩

theorem Off.since (w w' : Transfer) (h : Off w w') : Since w w' [] [] := by
  simp [Since,Conn.bytes,numberBytes,h.1,h.2]

theorem emits_off {x : TransferM β} {f : β → TransferM α} {P : α → Str → List Nat → Prop}
    (hx : Moves Off x) (hf : ∀ b, Emits Since (f b) P) : Emits Since (x >>= f) P :=
  (emits_aside Off.since hx).before hf

theorem off_disk (x : DiskM α) : Moves Off (Transfer.withDisk x) :=
  Moves.run (T := fun _ _ => True) (fun _ => wp_trivial (fun _ _ => trivial) fun _ _ => trivial)
    fun _ _ _ => ⟨rfl,rfl⟩

theorem off_file (x : EStateM Stop (Disk × Nat) α) : Moves Off (Transfer.filePart.run x) :=
  Moves.run (T := fun _ _ => True) (fun _ => wp_trivial (fun _ _ => trivial) fun _ _ => trivial)
    fun _ _ _ => ⟨rfl,rfl⟩

theorem since_read (count : Nat) : Emits Since (networkDesc.readAllOrExit count)
    fun buf heard told => heard = buf ∧ buf.length = count ∧ told = [] := fun w =>
  wp_networkRead (fun hle => ⟨_,[],⟨rfl,by rw [List.length_take]; omega,rfl⟩,
    (List.take_append_drop _ _).symm,by simp [numberBytes]⟩) fun _ _ => trivial

theorem since_number (width : Nat) : Emits Since (fromLittleEndian <$> networkDesc.readAllOrExit width)
    fun n heard told => heard = littleEndian width n ∧ told = [] := by
  rw [map_eq_pure_bind]
  refine (since_read width).bind fun buf _ _ ⟨hheard,hlen,htold⟩ => emits_pure ⟨?_,?_⟩
  · subst hheard hlen
    rw [littleEndian_fromLittleEndian,List.append_nil]
  · rw [htold,List.append_nil]

theorem since_string : Emits Since networkDesc.readStringWithLen
    fun s heard told => heard = stringBytes s ∧ s.length < 65536 ∧ told = [] := by
  have hlen : Emits Since networkDesc.readU16
      fun len heard told => heard = littleEndian 2 len ∧ len < 65536 ∧ told = [] := by
    refine (emits_map (since_read 2)).mono fun len _ _ ⟨buf,hof,hheard,hbuf,htold⟩ => ?_
    subst hof
    refine ⟨?_,?_,htold⟩
    · rw [hheard,← hbuf,littleEndian_fromLittleEndian]
    · have hlt := fromLittleEndian_lt buf
      rw [hbuf] at hlt
      omega
  refine hlen.bind fun len _ _ ⟨hheard,hlt,htold⟩ => ?_
  subst hheard htold
  split
  · rename_i hzero
    exact emits_pure ⟨by rw [hzero]; rfl,by simp,rfl⟩
  · refine (since_read len).mono fun s _ _ ⟨hs,hlen,htold⟩ => ⟨?_,by omega,htold⟩
    rw [hs,stringBytes,hlen]

theorem since_item : Emits Since read_fileitem_sock_t fun item heard told => told = [] ∧
    (item.flag = 0xFF ∧ heard = [0xFF] ∨
      item.flag = 0x00 ∧ heard = fileHeader item.file item.size ∨
      item.flag = 0x01 ∧ heard = dirItem item.file ∨ item.flag ≠ 0xFF ∧ item.flag ≠ 0x00 ∧ item.flag ≠ 0x01) := by
  have hflag : Emits Since networkDesc.readU8 fun flag heard told => heard = [flag] ∧ told = [] := by
    refine (since_read 1).bind fun buf _ _ ⟨hheard,hlen,htold⟩ => emits_pure ⟨?_,by simp [htold]⟩
    obtain ⟨b,rfl⟩ := List.length_eq_one_iff.mp hlen
    rw [hheard]
    rfl
  refine hflag.bind fun flag _ _ ⟨hheard,htold⟩ => ?_
  subst hheard htold
  split
  · rename_i hend
    exact emits_pure ⟨rfl,.inl ⟨hend,by rw [hend]; rfl⟩⟩
  · rename_i hend
    refine since_string.bind fun file _ _ ⟨hheard,hlt,htold⟩ => ?_
    subst hheard htold
    have hcut : file.length % 65536 = file.length := Nat.mod_eq_of_lt hlt
    split
    · rename_i hfile
      refine (since_number 8).bind fun size _ _ ⟨hheard,htold⟩ => emits_pure ⟨by simp [htold],?_⟩
      refine .inr (.inl ⟨hfile,?_⟩)
      simp [hheard,hfile,fileHeader,stringBytes,hcut]
    · rename_i hfile
      refine emits_pure ⟨rfl,.inr (.inr ?_)⟩
      by_cases hdir : flag = 0x01
      · exact .inl ⟨hdir,by simp [hdir,dirItem,stringBytes,hcut]⟩
      · exact .inr ⟨hend,hfile,hdir⟩

theorem since_tell (n : Nat) :
    Emits Since (tell true (.u64 n)) fun _ heard told => heard = [] ∧ told = [n] := by
  intro w
  change wp (Transfer.clPart.run (writeAllOrExit (.u64 n))) _ _ w
  rw [wp_run]
  refine wp_mono (wp_sends (.u64 n) w.cl) (fun _ k hk => ?_) fun _ _ h => h
  refine ⟨[],[n],⟨rfl,rfl⟩,rfl,?_⟩
  change k.bytes = _
  rw [hk]
  simp [numberBytes,Chunk.encode]

theorem since_abandon (P : α → Str → List Nat → Prop) : Emits Since (abandon : TransferM α) P := by
  intro w
  unfold abandon
  simp only [wp_bind,wp_run,close,wp_modify,wp_throw]

theorem since_chunks (output : Path × Name) (l : List Nat) (cur : Nat) :
    Emits Since (downloadChunks sys true output l cur) fun _ heard told =>
      heard.length = l.sum ∧ told = cumulative l cur := by
  induction l generalizing cur with
  | nil => exact emits_pure ⟨rfl,rfl⟩
  | cons n l ih =>
    refine (since_read n).bind fun buffer _ _ ⟨hheard,hlen,htold⟩ => ?_
    subst hheard htold
    refine emits_off (off_file _) fun _ => (since_tell (cur + n)).before fun _ => ?_
    refine (ih (cur + n)).mono fun _ heard told ⟨hsum,htold⟩ => ⟨?_,?_⟩
    · simp [hlen,hsum]
    · simp [cumulative,htold]

theorem since_file (filepath : Str) (size : Nat) :
    Emits Since (downloadFile sys true filepath size) fun _ heard told =>
      heard.length = size ∧ told = fileNumbers size := by
  refine emits_off (off_disk _) fun ret => ?_
  split
  · exact since_abandon _
  · refine emits_off (off_disk _) fun opened => ?_
    cases opened with
    | error e => exact since_abandon _
    | ok output =>
      refine emits_off (moves_modify fun _ => ⟨rfl,rfl⟩) fun _ => (since_tell size).before fun _ => ?_
      refine (since_chunks output _ 0).bind fun _ content told ⟨hlen,htold⟩ => ?_
      refine (since_tell maxuint).mono fun _ _ _ ⟨hheard,htold'⟩ => ⟨?_,?_⟩
      · rw [sum_chunks] at hlen
        simp [hlen,hheard]
      · simp [htold,htold',fileNumbers]

theorem since_items (turns : Nat) :
    Emits Since (downloadItems sys true turns) fun _ heard told => ∃ items : List Item,
      heard = items.flatMap Item.bytes ++ [0xFF] ∧ told = items.flatMap Item.told := by
  induction turns with
  | zero => exact emits_throw _ _
  | succ turns ih =>
    refine since_item.bind fun item header _ ⟨htold,hitem⟩ => ?_
    subst htold
    split
    · rename_i hend
      rcases hitem with ⟨_,rfl⟩ | ⟨h,_⟩ | ⟨h,_⟩ | ⟨h,_⟩
      · exact emits_pure ⟨[],rfl,rfl⟩
      · exact absurd (hend.symm.trans h) (by decide)
      · exact absurd (hend.symm.trans h) (by decide)
      · exact absurd hend h
    · rename_i hend
      split
      · rename_i hfile
        obtain rfl : header = fileHeader item.file item.size := by
          rcases hitem with ⟨h,_⟩ | ⟨_,h⟩ | ⟨h,_⟩ | ⟨_,h,_⟩
          · exact absurd h hend
          · exact h
          · exact absurd (hfile.symm.trans h) (by decide)
          · exact absurd hfile h
        refine (since_file item.file item.size).bind fun _ content _ ⟨hlen,htold⟩ => ?_
        subst htold
        refine ih.mono fun _ _ _ ⟨items,hheard,htold⟩ => ⟨⟨item.file,some content⟩ :: items,?_,?_⟩
        · simp [hheard,Item.bytes,hlen]
        · simp [htold,Item.told,hlen]
      · rename_i hfile
        split
        · rename_i hdir
          obtain rfl : header = dirItem item.file := by
            rcases hitem with ⟨h,_⟩ | ⟨h,_⟩ | ⟨_,h⟩ | ⟨_,_,h⟩
            · exact absurd h hend
            · exact absurd h hfile
            · exact h
            · exact absurd hdir h
          refine emits_off (off_disk _) fun _ => ?_
          refine ih.mono fun _ _ _ ⟨items,hheard,htold⟩ => ⟨⟨item.file,none⟩ :: items,?_,?_⟩
          · simp [hheard,Item.bytes]
          · simp [htold,Item.told]
        · exact since_abandon _

theorem off_pairs (turns : Nat) : Moves Off (clDesc.receivePathPairsList turns) :=
  fun u => wp_mono (wp_and (offWire_pairs turns u) (beside_pairs turns u)) (fun _ _ h => ⟨h.2.2,h.1.2⟩)
    fun _ _ h => ⟨h.2.2,h.1.2⟩

theorem off_pieces (pieces : List Str) : Moves Off (writePieces pieces) := by
  induction pieces with
  | nil => exact moves_pure _
  | cons x pieces ih =>
    refine Moves.bind ?_ fun _ => ih
    exact Moves.run (L := Transfer.rclPart) (told_writeAllOrExit _) fun _ _ h => ⟨h.1,rfl⟩

/-- A reply that is taken to its end is a list of items, whatever became of the directories among them;
the local client is told the totals as they were announced, and of each file how it came. -/
theorem download_told (sys : System) (w : Transfer) :
    wp (client_download sys) (fun _ w' => ∃ (tFiles tSize : Nat) (items : List Item),
      w.rcl.inp = littleEndian 8 tFiles ++ littleEndian 8 tSize ++ items.flatMap Item.bytes ++ [0xFF] ++
        w'.rcl.inp ∧
      w'.cl.bytes = w.cl.bytes ++ numberBytes ([tFiles,tSize] ++ items.flatMap Item.told ++ [maxuint_2]))
      (fun _ _ => True) w := by
  have whole : Emits Since (client_download sys) fun _ heard told => ∃ (tFiles tSize : Nat)
      (items : List Item), heard = littleEndian 8 tFiles ++ littleEndian 8 tSize ++
        items.flatMap Item.bytes ++ [0xFF] ∧
      told = [tFiles,tSize] ++ items.flatMap Item.told ++ [maxuint_2] := by
    refine emits_off moves_get fun s => emits_off (off_pairs _) fun v => ?_
    refine emits_off (off_pieces _) fun _ => ?_
    refine (since_number 8).bind fun totalFiles _ _ ⟨hheard,htold⟩ => ?_
    subst hheard htold
    refine (since_number 8).bind fun totalSize _ _ ⟨hheard,htold⟩ => ?_
    subst hheard htold
    refine (since_tell totalFiles).before fun _ => (since_tell totalSize).before fun _ => ?_
    refine emits_off moves_get fun s => ?_
    refine (since_items _).bind fun _ _ _ ⟨items,hheard,htold⟩ => ?_
    subst hheard htold
    refine (since_tell maxuint_2).mono fun _ _ _ ⟨hheard,htold⟩ => ⟨totalFiles,totalSize,items,?_,?_⟩
    · simp [hheard]
    · simp [htold]
  refine wp_mono (whole w) (fun _ w' h => ?_) fun _ _ h => h
  obtain ⟨heard,told,⟨tFiles,tSize,items,rfl,rfl⟩,hheard,htold⟩ := h
  exact ⟨tFiles,tSize,items,hheard,htold⟩

end Downloads

end RootHelper
