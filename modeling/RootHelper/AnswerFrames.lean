import RootHelper.RemoteSessions

/-!
What a handler of a remote session does once it has read its request: it answers, and leaves what is
still to be read as it is.
-/

set_option autoImplicit false

namespace RootHelper
open Posix Control

variable {ε σ : Type}

section Answers

variable {R : σ → σ → Prop} [IsTrans σ R] {snk : Sink ε σ}
  (hwrite : ∀ c, Moves R (snk.writeAllOrExit c))

include hwrite

theorem moves_writeStringWithLen (s : Str) : Moves R (snk.writeStringWithLen s) :=
  (hwrite _).bind fun _ => hwrite _

theorem moves_sendBaseResponse (ret : Int) (errno : Nat) : Moves R (snk.sendBaseResponse ret errno) :=
  Moves.ite (hwrite _) ((hwrite _).bind fun _ => hwrite _)

theorem moves_writesingleStats_resp (r : singleStats_resp_t) : Moves R (snk.writesingleStats_resp r) := by
  unfold Sink.writesingleStats_resp
  refine (hwrite _).bind fun _ => (hwrite _).bind fun _ => (hwrite _).bind fun _ => ?_
  refine (hwrite _).bind fun _ => (hwrite _).bind fun _ => (hwrite _).bind fun _ => ?_
  exact (hwrite _).bind fun _ => (hwrite _).bind fun _ => hwrite _

theorem moves_writefolderStats_resp (r : folderStats_resp_t) : Moves R (snk.writefolderStats_resp r) := by
  unfold Sink.writefolderStats_resp
  refine (hwrite _).bind fun _ => (hwrite _).bind fun _ => (hwrite _).bind fun _ => ?_
  exact (hwrite _).bind fun _ => hwrite _

variable (v : View) (access : Str → Bool) (errno : Nat)

theorem moves_stats_file (filepath : Str) : Moves R (stats_file v snk access errno filepath) := by
  unfold stats_file
  refine Moves.ite (moves_sendBaseResponse hwrite _ _) ?_
  cases Metadata.osStat v filepath with
  | none => exact moves_sendBaseResponse hwrite _ _
  | some resp =>
    exact (moves_sendBaseResponse hwrite _ _).bind fun _ => moves_writesingleStats_resp hwrite _

theorem moves_counts (ret : Int) (resp : folderStats_resp_t) : Moves R (do
    snk.sendBaseResponse ret errno
    snk.writefolderStats_resp resp) :=
  (moves_sendBaseResponse hwrite _ _).bind fun _ => moves_writefolderStats_resp hwrite _

theorem moves_stats_dir (dirpath : Str) : Moves R (stats_dir v snk access errno dirpath) :=
  Moves.ite (moves_sendBaseResponse hwrite _ _) (moves_counts hwrite errno _ _)

theorem moves_stats_multiple (paths : List Str) : Moves R (stats_multiple v snk errno paths) :=
  moves_counts hwrite errno _ _

end Answers

section Listing

variable {R : σ → σ → Prop} [Std.Refl R] [IsTrans σ R] {inOutDesc : ServerEnd ε σ}
  (hwrite : ∀ c, Moves R (inOutDesc.desc.writeAllOrExit c))
  (honce : ∀ buf, Moves R (inOutDesc.write buf)) (hclose : Moves R inOutDesc.close)

include honce

theorem moves_writels_resp (entry : ls_resp_t) : Moves R (writels_resp inOutDesc.write entry) := by
  unfold writels_resp
  refine (honce _).bind fun _ => Moves.ite (moves_pure _) ?_
  refine (honce _).bind fun _ => Moves.ite (moves_pure _) ?_
  refine (honce _).bind fun _ => Moves.ite (moves_pure _) ?_
  refine (honce _).bind fun _ => Moves.ite (moves_pure _) ?_
  exact (honce _).bind fun _ => Moves.ite (moves_pure _) (moves_pure _)

include hclose

theorem moves_sendEntries (v : View) (turns : Nat) (it : readdirIterator) :
    Moves R (sendEntries inOutDesc v turns it) := by
  induction turns generalizing it with
  | zero => exact moves_throw _
  | succ turns ih =>
    rw [sendEntries]
    cases it.next v with
    | none => exact moves_pure _
    | some i =>
      obtain ⟨i,it⟩ := i
      dsimp only
      cases assemble_ls_resp_from_filepath v i.current i.currentName with
      | none => exact ih it
      | some entry =>
        refine (moves_writels_resp honce entry).bind fun ret => ?_
        exact Moves.ite (hclose.bind fun _ => moves_pure _) (ih it)

include hwrite

theorem moves_listDir (v : View) (homePath : Str) (access : Str → Bool) (errno : Nat) (path : Str) :
    Moves R (listDir inOutDesc v homePath access errno path) := by
  unfold listDir
  refine Moves.ite (moves_sendBaseResponse hwrite _ _) ?_
  cases readdirIterator.createIterator v (if path = [] then homePath else path) .FULL .PLAIN false false with
  | none => exact moves_sendBaseResponse hwrite _ _
  | some it =>
    have listing : Moves R (do
        if ← sendEntries inOutDesc v ((it.entries v).length + 1) it then
          inOutDesc.desc.writeAllOrExit (.u16 0)
        else pure ()) := by
      refine (moves_sendEntries honce hclose v _ it).bind fun whole => ?_
      cases whole with
      | false => exact moves_pure _
      | true => exact hwrite _
    refine Moves.ite ((hwrite _).bind fun _ => ?_) ((moves_sendBaseResponse hwrite _ _).bind fun _ => listing)
    exact (moves_writeStringWithLen hwrite _).bind fun _ => listing

omit [Std.Refl R] honce hclose in
theorem moves_retrieveHomePath (homePath : Str) : Moves R (retrieveHomePath inOutDesc homePath) :=
  (moves_sendBaseResponse hwrite _ _).bind fun _ => moves_writeStringWithLen hwrite _

end Listing

section Creating

variable (outcome : CreateOutcome)

theorem told_writeAllOrExit (c : Chunk) : Moves Told (writeAllOrExit c) := fun _ =>
  wp_writeAllOrExit (fun _ htold _ => htold) fun _ htold => htold

theorem told_sendBaseResponse (ret : Int) (errno : Nat) : Moves Told (sendBaseResponse ret errno) :=
  @moves_sendBaseResponse _ _ Told _ connDesc.toSink told_writeAllOrExit ret errno

theorem told_publish (curSize ticks : Nat) : Moves Told (publish curSize ticks) := by
  induction ticks with
  | zero => exact moves_pure _
  | succ ticks ih =>
    refine Moves.bind ?_ fun _ => ih
    exact Moves.ite (moves_pure _) ((told_writeAllOrExit _).attempt fun _ => moves_pure _)

theorem told_writeChunks (l : List Nat) (i curSize : Nat) :
    Moves Told (writeChunks outcome l i curSize) := by
  induction l generalizing i curSize with
  | nil => exact moves_pure _
  | cons delta rest ih =>
    exact Moves.ite ((told_publish _ _).bind fun _ => ih _ _) (moves_throw _)

theorem told_createContent (chunkSize size : Nat) (hash : Str) :
    Moves Told (createContent outcome chunkSize size hash) := by
  unfold createContent
  cases outcome.create with
  | some errno => exact (told_sendBaseResponse _ _).bind fun _ => moves_pure _
  | none =>
    refine (told_sendBaseResponse _ _).bind fun _ => ?_
    exact (told_writeChunks outcome _ _ _).bind fun _ => moves_pure _

theorem told_createAdvanced (creationStrategy : Byte) (filesize : Nat)
    (seed output_hash backend_cipher : Str) :
    Moves Told (createAdvanced outcome creationStrategy filesize seed output_hash backend_cipher) := by
  refine Moves.ite ((told_createContent outcome _ _ _).bind fun _ => moves_pure _) ?_
  refine Moves.ite (Moves.map ?_) (moves_pure _)
  exact Moves.ite (moves_throw _) (told_createContent outcome _ _ _)

theorem told_creation_response (filepath : Str) (mode : Nat) (creation : Creation) :
    Moves Told (creation_response outcome filepath mode creation) := by
  cases creation with
  | denied => exact told_sendBaseResponse _ _
  | directory => exact told_sendBaseResponse _ _
  | file =>
    refine Moves.ite (told_sendBaseResponse _ _) ?_
    cases outcome.create with
    | some errno => exact told_sendBaseResponse _ _
    | none => exact told_sendBaseResponse _ _
  | advanced creationStrategy filesize seed output_hash backend_cipher =>
    refine (told_createAdvanced outcome _ _ _ _ _).bind fun _ => ?_
    refine (told_writeAllOrExit _).bind fun _ => Moves.ite ?_ (moves_pure _)
    exact @moves_writeStringWithLen _ _ Told _ connDesc.toSink told_writeAllOrExit _

end Creating

/-- What is still to be read stays so. -/
def SameInput (u u' : Transfer) : Prop := u'.rcl.inp = u.rcl.inp

instance : Std.Refl SameInput := ⟨fun _ => rfl⟩

instance : IsTrans Transfer SameInput := ⟨fun _ _ _ h h' => h'.trans h⟩

/-- The file system and the local client are no part of the connection. -/
def SameConn (u u' : Transfer) : Prop := u'.rcl = u.rcl

instance : Std.Refl SameConn := ⟨fun _ => rfl⟩

instance : IsTrans Transfer SameConn := ⟨fun _ _ _ h h' => h'.trans h⟩

section Frames

variable {α : Type}

theorem sameInput_run {x : ConnM α} (hx : Moves Told x) : Moves SameInput (Transfer.rclPart.run x) :=
  hx.run fun _ _ htold => htold.1

theorem sameConn_withDisk (x : DiskM α) : Moves SameConn (Transfer.withDisk x) :=
  Moves.run (T := fun _ _ => True) (fun _ => wp_trivial (fun _ _ => trivial) fun _ _ => trivial)
    fun _ _ _ => rfl

theorem sameConn_file (x : EStateM Stop (Disk × Nat) α) : Moves SameConn (Transfer.filePart.run x) :=
  Moves.run (T := fun _ _ => True) (fun _ => wp_trivial (fun _ _ => trivial) fun _ _ => trivial)
    fun _ _ _ => rfl

theorem SameConn.sameInput {x : TransferM α} (hx : Moves SameConn x) : Moves SameInput x :=
  hx.mono fun _ _ hconn => congrArg Conn.inp hconn

end Frames

theorem sameInput_writeAllOrExit (c : Chunk) : Moves SameInput (networkDesc.writeAllOrExit c) :=
  sameInput_run (told_writeAllOrExit c)

theorem sameInput_write (buf : Str) : Moves SameInput (networkEnd.write buf) := by
  have once : Moves Told (writeOnce buf) := by
    intro k
    unfold writeOnce
    simp only [Leaves,wp_bind,wp_get,wp_ite,wp_pure,wp_set]
    exact ⟨fun _ => refl_of Told k,fun _ => ⟨rfl,List.prefix_append _ _,id⟩⟩
  exact sameInput_run once

theorem sameInput_close : Moves SameInput networkEnd.close := by
  have closed : Moves Told close := moves_modify fun _ => ⟨rfl,List.prefix_rfl,fun _ => rfl⟩
  exact sameInput_run closed

section Sending

variable (sys : System)

theorem sameInput_uploadChunks (input : Path) (l : List Nat) (currentProgress : Nat) :
    Moves SameInput (uploadChunks sys false input l currentProgress) := by
  induction l generalizing currentProgress with
  | nil => exact moves_pure _
  | cons count rest ih =>
    refine (SameConn.sameInput (sameConn_file _)).bind fun v => ?_
    exact (sameInput_writeAllOrExit _).bind fun _ => (moves_pure _).bind fun _ => ih _

theorem sameInput_uploadFile (source destination : Str) (thisFileSize : Nat) :
    Moves SameInput (OSUploadRegularFileWithProgress sys source destination thisFileSize false) := by
  refine (SameConn.sameInput (sameConn_withDisk _)).bind fun opened => ?_
  cases opened with
  | error e => exact moves_pure _
  | ok input =>
    refine Moves.bind (moves_modify fun _ => rfl) fun _ => (sameInput_writeAllOrExit _).bind fun _ => ?_
    refine (moves_pure _).bind fun _ => ?_
    exact (sameInput_uploadChunks sys _ _ _).bind fun _ => moves_pure _

theorem sameInput_uploadEntries {upload : Str → Str → TransferM Int}
    (hupload : ∀ x y, Moves SameInput (upload x y)) (src_path dest_path : Str)
    (l : List (Str × Name)) (ret : Int) :
    Moves SameInput (uploadEntries sys upload src_path dest_path l ret) := by
  induction l generalizing ret with
  | nil => exact moves_pure _
  | cons e es ih =>
    refine (SameConn.sameInput (sameConn_withDisk _)).bind fun _ => ?_
    exact (hupload _ _).bind fun _ => ih _

theorem sameInput_upload (depth : Nat) (src_path dest_path : Str) :
    Moves SameInput (genericUploadBasicRecursiveImplWithProgress sys false depth src_path dest_path) := by
  induction depth generalizing src_path dest_path with
  | zero => exact moves_throw _
  | succ depth ih =>
    have file : ∀ size, Moves SameInput (do
        let ret_ ← OSUploadRegularFileWithProgress sys src_path dest_path size false
        tell false (.u64 maxuint)
        pure ret_) := fun size =>
      (sameInput_uploadFile sys _ _ _).bind fun _ => (moves_pure _).bind fun _ => moves_pure _
    unfold genericUploadBasicRecursiveImplWithProgress
    refine (SameConn.sameInput (sameConn_withDisk _)).bind fun stated => ?_
    split
    · exact moves_pure _
    · refine (SameConn.sameInput (sameConn_withDisk _)).bind fun entries => ?_
      refine (sameInput_uploadEntries sys ih _ _ _ _).bind fun ret => ?_
      exact Moves.ite ((sameInput_writeAllOrExit _).bind fun _ => moves_pure _)
        ((moves_pure _).bind fun _ => moves_pure _)
    · exact file _

theorem sameInput_sendSelection (depth : Nat) (v : List (Str × Str)) :
    Moves SameInput (sendSelection sys depth v) := by
  induction v with
  | nil => exact moves_pure _
  | cons item v ih => exact (sameInput_upload sys depth _ _).bind fun _ => ih

end Sending

end RootHelper
