import RootHelper.Posix.Making
import RootHelper.TransferProgress

/-!
Streaming one file to a client or from one: what comes is written to a file that was not there, for as long
as reads and writes go well, and then the connection is closed.
-/

set_option autoImplicit false

namespace RootHelper
open Posix Control

/-- The connection of a client, the disk, and where the open file is gone on with. -/
structure FileStream (σ : Type) where
  client : σ
  disk : Disk
  offset : Nat

namespace FileStream

variable {σ : Type}

def clientPart : Lens (FileStream σ) σ where
  get s := s.client
  set s k := { s with client := k }
  get_set _ _ := rfl
  set_get _ := rfl
  set_set _ _ _ := rfl

def diskPart : Lens (FileStream σ) Disk where
  get s := s.disk
  set s d := { s with disk := d }
  get_set _ _ := rfl
  set_get _ := rfl
  set_set _ _ _ := rfl

def filePart : Lens (FileStream σ) (Disk × Nat) where
  get s := (s.disk,s.offset)
  set s f := { s with disk := f.1, offset := f.2 }
  get_set _ _ := rfl
  set_get _ := rfl
  set_set _ _ _ := rfl

end FileStream

section Model

variable {σ : Type} (sys : System) (cl : Descriptor Stop σ)

def sendErrorResponse (errno : Nat) : EStateM Stop (FileStream σ) Unit :=
  FileStream.clientPart.run (cl.desc.sendBaseResponse (-1) errno)

/-- The turns of `for(;;)`, left where a read gives nothing or a write is short. -/
def sendFile (input : Path) : Nat → EStateM Stop (FileStream σ) Unit
  | 0 => throw .diverged
  | turns+1 => do
    let (readBytes,iobuffer) ← FileStream.filePart.run ((inputFile sys input).read COPY_CHUNK_SIZE)
    if readBytes ≤ 0 then pure ()
    else do
      let writtenBytes ← FileStream.clientPart.run (cl.writeAll iobuffer)
      if writtenBytes < readBytes then pure () else sendFile input turns

def receiveFile (output : Path × Name) : Nat → EStateM Stop (FileStream σ) Unit
  | 0 => throw .diverged
  | turns+1 => do
    let (readBytes,iobuffer) ← FileStream.clientPart.run (cl.read COPY_CHUNK_SIZE)
    if readBytes ≤ 0 then pure ()
    else do
      let writtenBytes ← FileStream.filePart.run ((outputFile sys output).writeAll iobuffer)
      if writtenBytes < readBytes then pure () else receiveFile output turns

def openedForStream {α : Type} (opened : Except Errno α) (stream : α → EStateM Stop (FileStream σ) Unit) :
    EStateM Stop (FileStream σ) Unit :=
  match opened with
  | .error e => sendErrorResponse cl e.code
  | .ok file => do
    modify fun s => { s with offset := 0 }
    FileStream.clientPart.run (cl.desc.sendBaseResponse 0 0)
    stream file
    FileStream.clientPart.run cl.close
    throw .threadExit

/-- With any flag set the file is sent, else it is made of what comes. -/
def readOrWriteFile (turns : Nat) (flags : Fin 8) : EStateM Stop (FileStream σ) Unit := do
  let filepath ← FileStream.clientPart.run cl.desc.readStringWithLen
  if flags ≠ 0 then do
    match ← FileStream.diskPart.run (sys.stat filepath) with
    | .error _ => sendErrorResponse cl Errno.ENOENT.code
    | .ok st =>
      if st.isDir then sendErrorResponse cl Errno.EISDIR.code
      else do
        let fd ← FileStream.diskPart.run (sys.openRead filepath)
        openedForStream cl fd fun input => sendFile sys cl input turns
  else do
    let fd ← FileStream.diskPart.run (sys.openExcl filepath 0o644)
    openedForStream cl fd fun output => receiveFile sys cl output turns

end Model

section Writes

variable {sys : System} {fs : FileSystem} {p : Path} {c : Name} {mode : Nat} {f : Disk × Nat}
  {written : Str}

/-- What one write leaves is longer by what it says it has taken. -/
theorem outputFile_write (buf : Str) (h : Filling fs p c mode f written) :
    wp ((outputFile sys (p,c)).write buf) (fun r t => ∃ k : Nat, k ≤ buf.length ∧
      (r = k ∨ r < 0 ∧ k = 0) ∧ Filling fs p c mode t (written ++ buf.take k))
      (fun _ _ => False) f := by
  have same : ∀ d : Disk, d.fs = f.1.fs → Filling fs p c mode (d,f.2) (written ++ buf.take 0) := by
    intro d hd
    rw [List.take_zero,List.append_nil]
    exact ⟨by rw [hd]; exact h.node,h.offset,fun r hr => by rw [hd]; exact h.others r hr⟩
  simp only [outputFile,wp_bind,wp_get,wp_run,System.write,Lens.fst_get,Lens.fst_set]
  refine System.wp_perform (fun e => ?_) fun taken ch heffect => ?_
  · exact ⟨0,Nat.zero_le _,.inr ⟨by decide,rfl⟩,same _ rfl⟩
  · simp only [wp_bind,wp_modify,wp_pure]
    rcases @Kernel.writeEffect_eq f.1.fs (sys.transfer f.1.tick) p c f.2 buf written mode h.node
      with ⟨_,hnone | ⟨e,herror⟩⟩ | ⟨_,hput⟩
    · obtain ⟨rfl,rfl⟩ := Prod.mk.inj (Except.ok.inj (heffect.symm.trans hnone))
      exact ⟨0,Nat.zero_le _,.inl rfl,same _ rfl⟩
    · rw [heffect] at herror
      cases herror
    · obtain ⟨rfl,rfl⟩ := Prod.mk.inj (Except.ok.inj (heffect.symm.trans hput))
      have htake : buf.take (sys.transfer f.1.tick).toNat =
          buf.take (buf.take (sys.transfer f.1.tick).toNat).length := by
        simp [List.take_eq_take_min]
      have hpar := f.1.fs.parent p c (by rw [h.node]; rfl)
      have hcan : f.1.fs.CanPut p c (.file (written ++ buf.take (sys.transfer f.1.tick).toNat) mode) :=
        ⟨hpar.1,hpar.2,fun hdir => by simp [FileSystem.isDir,h.node,Node.isDir] at hdir⟩
      have hnode := Change.node_put hcan
      rw [h.offset,Kernel.overlay_at_end]
      refine ⟨(buf.take (sys.transfer f.1.tick).toNat).length,List.length_take_le' _ _,.inl rfl,?_⟩
      rw [← htake]
      refine ⟨(hnode _).trans (if_pos rfl),?_,fun r hr => ?_⟩
      · exact List.length_append.symm
      · exact ((hnode r).trans (if_neg hr)).trans (h.others r hr)

/-- Of a whole write a prefix is taken, all of it where the result says so. -/
theorem outputFile_writeAllLoop {count turns : Nat} (buf : Str) (hcount : buf.length ≤ count)
    (h : Filling fs p c mode f written) :
    wp ((outputFile sys (p,c)).writeAllLoop count turns buf) (fun r t => ∃ k : Nat, k ≤ buf.length ∧
      (0 < buf.length → count ≤ r → k = buf.length) ∧ Filling fs p c mode t (written ++ buf.take k))
      (fun _ t => ∃ k : Nat, k ≤ buf.length ∧ Filling fs p c mode t (written ++ buf.take k)) f := by
  induction turns generalizing buf f written with
  | zero => exact ⟨0,Nat.zero_le _,by simpa using h⟩
  | succ turns ih =>
    rw [Descriptor.writeAllLoop,wp_bind]
    refine wp_mono (outputFile_write buf h) (fun curr t ht => ?_) fun _ _ h => h.elim
    obtain ⟨k,hk,hcurr,ht⟩ := ht
    split
    · rename_i hle
      exact ⟨k,hk,fun hpos hall => by omega,ht⟩
    · rename_i hpos
      have hk' : curr.toNat = k := by omega
      rw [hk']
      dsimp only
      split
      · rename_i hnil
        exact ⟨k,hk,fun _ _ => Nat.le_antisymm hk (List.drop_eq_nil_iff.mp hnil),ht⟩
      · rename_i hmore
        have hlen : (buf.drop k).length = buf.length - k := List.length_drop
        have hjoin : ∀ j, written ++ buf.take k ++ (buf.drop k).take j = written ++ buf.take (k + j) := by
          intro j
          rw [List.append_assoc,← List.take_add]
        refine wp_mono (ih (buf.drop k) (by omega) ht) (fun r u hu => ?_) fun _ u hu => ?_
        · obtain ⟨j,hj,hall,hu⟩ := hu
          rw [hjoin] at hu
          have hpos' := List.length_pos_of_ne_nil hmore
          exact ⟨k + j,by omega,fun _ hr => by have := hall hpos' hr; omega,hu⟩
        · obtain ⟨j,hj,hu⟩ := hu
          rw [hjoin] at hu
          exact ⟨k + j,by omega,hu⟩

end Writes

/-! ### However the connection ends -/

def Ungiven {σ : Type} (got : σ → Str) (s t : σ) : Prop := got t = got s

section Ungiven

variable {σ : Type} {got : σ → Str}

instance : Std.Refl (Ungiven got) := ⟨fun _ => rfl⟩

instance : IsTrans σ (Ungiven got) := ⟨fun _ _ _ h h' => Eq.trans h' h⟩

end Ungiven

namespace Descriptor

variable {ε σ : Type} {d : Descriptor ε σ} {got : σ → Str}

/-- `got` is what reads have given, one after the other; writing and closing give nothing. -/
structure Gives (d : Descriptor ε σ) (got : σ → Str) : Prop where
  read : ∀ count s, wp (d.read count)
    (fun r t => got t = got s ++ if r.1 ≤ 0 then [] else r.2) (fun _ t => got t = got s) s
  write : ∀ buf, Moves (Ungiven got) (d.write buf)
  close : Moves (Ungiven got) d.close

theorem Gives.readAllLoop (h : d.Gives got) {count turns remaining : Nat} {buf bs : Str} {s : σ}
    (hs : got s = bs ++ buf) :
    wp (d.readAllLoop count turns remaining buf) (fun r t => got t = bs ++ r.2) (fun _ _ => True) s := by
  induction turns generalizing remaining buf s with
  | zero => trivial
  | succ turns ih =>
    rw [Descriptor.readAllLoop,wp_bind]
    refine wp_mono (h.read remaining s) (fun r t hr => ?_) fun _ _ _ => trivial
    obtain ⟨curr,bytes⟩ := r
    simp only at hr ⊢
    split
    · rename_i hle
      rwa [if_pos hle,List.append_nil,hs] at hr
    · rename_i hpos
      rw [if_neg hpos,hs,List.append_assoc] at hr
      split
      · exact hr
      · exact ih hr

theorem Gives.readAllOrExit (h : d.Gives got) (count : Nat) (s : σ) :
    wp (d.readAllOrExit count) (fun buf t => got t = got s ++ buf) (fun _ _ => True) s := by
  rw [Descriptor.readAllOrExit,wp_bind]
  refine wp_mono (h.readAllLoop (List.append_nil _).symm) (fun r t hr => ?_) fun _ _ _ => trivial
  dsimp only
  split
  · rw [wp_bind]
    exact wp_trivial (fun _ _ => trivial) fun _ _ => trivial
  · exact hr

theorem Gives.readStringWithLen (h : d.Gives got) (hhon : d.Honest) (s : σ) :
    wp d.desc.readStringWithLen (fun file t => got t = got s ++ stringBytes file) (fun _ _ => True) s := by
  rw [Source.readStringWithLen,wp_bind,Source.readU16,wp_map]
  refine wp_mono (wp_and (h.readAllOrExit 2 s) (hhon.readAllOrExit 2 s)) (fun len t ht => ?_)
    fun _ _ _ => trivial
  obtain ⟨ht,hlen⟩ := ht
  have hback : littleEndian 2 (fromLittleEndian len) = len := by
    rw [← hlen,littleEndian_fromLittleEndian]
  split
  · rename_i hzero
    rw [hzero] at hback
    rw [wp_pure,ht,← hback]
    rfl
  · refine wp_mono (wp_and (h.readAllOrExit _ t) (hhon.readAllOrExit _ t)) (fun file u hu => ?_)
      fun _ _ _ => trivial
    obtain ⟨hu,hfile⟩ := hu
    rw [hu,ht,stringBytes,hfile,hback,List.append_assoc]

end Descriptor

theorem Moves.writeAll {ε σ : Type} {R : σ → σ → Prop} [Std.Refl R] [IsTrans σ R]
    {d : Descriptor ε σ} (h : ∀ buf, Moves R (d.write buf)) (buf : Str) : Moves R (d.writeAll buf) := by
  have loop : ∀ count turns buf, Moves R (d.writeAllLoop count turns buf) := by
    intro count turns
    induction turns with
    | zero => exact fun _ => moves_throw _
    | succ turns ih =>
      intro buf
      refine (h buf).bind fun curr => Moves.ite (moves_pure _) ?_
      exact Moves.ite (moves_pure _) (ih _)
  exact loop _ _ buf

namespace Descriptor

variable {ε σ : Type} {d : Descriptor ε σ} {got : σ → Str}

theorem Gives.sendBaseResponse (h : d.Gives got) (ret : Int) (errno : Nat) :
    Moves (Ungiven got) (d.desc.sendBaseResponse ret errno) := by
  have hsend : ∀ c : Chunk, Moves (Ungiven got) (d.desc.writeAllOrExit c) := fun c =>
    (Moves.writeAll h.write c.encode).bind fun _ =>
      Moves.ite (h.close.bind fun _ => moves_throw _) (moves_pure _)
  exact Moves.ite (hsend _) ((hsend _).bind fun _ => hsend _)

end Descriptor

section Received

variable {σ : Type} {sys : System} {cl : Descriptor Stop σ} {got : σ → Str} {fs : FileSystem} {p : Path}
  {c : Name} {mode : Nat}

/-- Behind `base` the client has been given what is in the open file. -/
def KeepingUp (got : σ → Str) (fs : FileSystem) (p : Path) (c : Name) (mode : Nat) (base : Str)
    (s : FileStream σ) : Prop :=
  ∃ content rest, got s.client = base ++ (content ++ rest) ∧
    Filling fs p c mode (s.disk,s.offset) content

theorem KeepingUp.run {α : Type} {base : Str} {x : EStateM Stop σ α} (hx : Moves (Ungiven got) x)
    {s : FileStream σ} (h : KeepingUp got fs p c mode base s) :
    Leaves (KeepingUp got fs p c mode base) (FileStream.clientPart.run x) s := by
  obtain ⟨content,rest,hgot,hfill⟩ := h
  rw [Leaves,wp_run]
  exact wp_mono (hx s.client) (fun _ _ ht => ⟨content,rest,Eq.trans ht hgot,hfill⟩)
    fun _ _ ht => ⟨content,rest,Eq.trans ht hgot,hfill⟩

theorem leaves_receiveFile (hhon : cl.Honest) (hgives : cl.Gives got) {base content : Str} {turns : Nat}
    {s : FileStream σ} (hgot : got s.client = base ++ content)
    (hfill : Filling fs p c mode (s.disk,s.offset) content) :
    Leaves (KeepingUp got fs p c mode base) (receiveFile sys cl (p,c) turns) s := by
  induction turns generalizing s content with
  | zero => exact ⟨content,[],by rw [hgot,List.append_nil],hfill⟩
  | succ turns ih =>
    rw [receiveFile,Leaves,wp_bind,wp_run]
    refine wp_mono (wp_and (hgives.read _ s.client) (hhon _ s.client)) (fun r k hr => ?_) fun _ k hk => ?_
    · obtain ⟨readBytes,iobuffer⟩ := r
      obtain ⟨hk,hlen⟩ := hr
      simp only at hk hlen ⊢
      split
      · rename_i hle
        rw [if_pos hle,List.append_nil] at hk
        exact ⟨content,[],by rw [List.append_nil]; exact hk.trans hgot,hfill⟩
      · rename_i hpos
        rw [if_neg hpos,hgot] at hk
        obtain ⟨hcount,_⟩ := hlen (by omega)
        rw [wp_bind,wp_run]
        refine wp_mono (outputFile_writeAllLoop iobuffer (Nat.le_refl _) hfill) (fun written f hf => ?_)
          fun _ f hf => ?_
        · obtain ⟨m,hm,hall,hf⟩ := hf
          split
          · refine ⟨_,iobuffer.drop m,?_,hf⟩
            rw [List.append_assoc,List.take_append_drop,← List.append_assoc]
            exact hk
          · rename_i hwhole
            obtain rfl := hall (by omega) (by omega)
            rw [List.take_length] at hf
            exact ih (by rw [← List.append_assoc]; exact hk) hf
        · obtain ⟨m,hm,hf⟩ := hf
          refine ⟨_,iobuffer.drop m,?_,hf⟩
          rw [List.append_assoc,List.take_append_drop,← List.append_assoc]
          exact hk
    · exact ⟨content,[],by rw [List.append_nil]; exact Eq.trans hk.1 hgot,hfill⟩

/-- Nothing has been made, or else a file stands where nothing stood under the path that was sent, and
in it is the beginning of what came behind that path. Nothing else is touched. -/
def Streamed (sys : System) (got : σ → Str) (s t : FileStream σ) : Prop :=
  t.disk.fs = s.disk.fs ∨ ∃ filepath p c, sys.spot s.disk.fs filepath = .ok (.name p c) ∧
    ¬ s.disk.fs.has (p ++ [c]) ∧
    KeepingUp got s.disk.fs p c (sys.masked 0o644) (got s.client ++ stringBytes filepath) t

/-- So it is whatever the system answers and however the connection ends. -/
theorem streamed_prefix (sys : System) (hhon : cl.Honest) (hgives : cl.Gives got) (turns : Nat)
    (s : FileStream σ) : Streamed sys got s (final (readOrWriteFile sys cl turns 0) s) := by
  refine leaves_iff.mp ?_
  rw [readOrWriteFile,Leaves,wp_bind,wp_run]
  refine wp_mono (hgives.readStringWithLen hhon s.client) (fun filepath k hk => ?_) fun _ _ _ => .inl rfl
  change got k = got s.client ++ stringBytes filepath at hk
  rw [if_neg (by simp),wp_bind,wp_run]
  refine System.wp_perform (fun e => ?_) fun made ch hmade => ?_
  · rw [openedForStream,sendErrorResponse,wp_run]
    exact wp_trivial (fun _ _ => .inl rfl) fun _ _ => .inl rfl
  obtain ⟨p,c⟩ := made
  obtain ⟨rfl,hspot,hfree⟩ := Kernel.makeEffect_ok hmade
  have hnode := Change.node_put (n := .file [] (sys.masked 0o644))
    (FileSystem.canPut_free (Kernel.spot_name hspot) hfree)
  simp only [openedForStream,wp_bind,wp_modify]
  let d := s.disk.done ⟨.openExcl filepath 0o644,some (.put p c (.file [] (sys.masked 0o644)))⟩
  have hfill : Filling s.disk.fs p c (sys.masked 0o644) (d,0) [] :=
    ⟨(hnode _).trans (if_pos rfl),rfl,fun r hr => (hnode r).trans (if_neg hr)⟩
  have settled : ∀ t, KeepingUp got s.disk.fs p c (sys.masked 0o644)
      (got s.client ++ stringBytes filepath) t → Streamed sys got s t :=
    fun t ht => .inr ⟨filepath,p,c,hspot,hfree,ht⟩
  -- the response is sent before anything more is read
  have hresponse := hgives.sendBaseResponse 0 0 k
  rw [wp_run]
  refine wp_mono hresponse (fun _ k' hk' => ?_) fun _ k' hk' => settled _ ?_
  · have hgot : got k' = got s.client ++ stringBytes filepath ++ [] := by
      rw [List.append_nil,← hk]
      exact hk'
    refine wp_mono (leaves_receiveFile hhon hgives hgot hfill) (fun _ u hu => ?_) fun _ u hu => settled u hu
    exact wp_mono (hu.run hgives.close) (fun _ v hv => settled v hv) fun _ v hv => settled v hv
  · exact ⟨[],[],by rw [List.nil_append,List.append_nil,← hk]; exact hk',hfill⟩

end Received

/-! ### When reads and writes go well -/

/-- A client has still to be given `inp` and then shuts its side; `out` has been sent to it. -/
structure Streams {σ : Type} (d : Descriptor Stop σ) (on : σ → Str → Str → Prop)
    (shut : σ → Str → Prop) : Prop where
  reads : ∀ out, d.Yields fun s inp => on s inp out
  ends : ∀ count s out, on s [] out → ∃ bytes t, d.read count s = .ok (0,bytes) t ∧ on t [] out
  writes : ∀ inp, d.Takes fun s out => on s inp out
  closes : ∀ s inp out, on s inp out → ∃ t, d.close s = .ok () t ∧ shut t out

section Streams

variable {σ : Type} {sys : System} {cl : Descriptor Stop σ} {on : σ → Str → Str → Prop}
  {shut : σ → Str → Prop} {fs : FileSystem} {p : Path} {c : Name} {mode turns : Nat} {filepath : Str}

theorem wp_receiveFile (hfair : sys.Fair) (hcl : Streams cl on shut) {content written out : Str}
    (hturns : content.length < turns) {s : FileStream σ} (hon : on s.client content out)
    (hfill : Filling fs p c mode (s.disk,s.offset) written) :
    wp (receiveFile sys cl (p,c) turns) (fun _ t => on t.client [] out ∧
      Filling fs p c mode (t.disk,t.offset) (written ++ content)) (fun _ _ => False) s := by
  induction turns generalizing s content written with
  | zero => omega
  | succ turns ih =>
    rw [receiveFile,wp_bind,wp_run]
    change wp (cl.read COPY_CHUNK_SIZE) _ _ s.client
    by_cases hcontent : content = []
    · obtain ⟨bytes,k,hread,hk⟩ := hcl.ends COPY_CHUNK_SIZE s.client out (hcontent ▸ hon)
      rw [wp_of_ok hread]
      simp only
      rw [if_pos (Int.le_refl 0),hcontent,List.append_nil]
      exact ⟨hk,hfill⟩
    · obtain ⟨n,k,hn,_,hle,hread,hk⟩ := hcl.reads out COPY_CHUNK_SIZE s.client content (by decide)
        hcontent hon
      have hlen : (content.take n).length = n := by
        rw [List.length_take]
        omega
      have hsome : content.take n ≠ [] := by
        rw [← List.length_pos_iff_ne_nil]
        omega
      rw [wp_of_ok hread]
      simp only
      rw [if_neg (by omega),wp_bind,wp_run]
      refine wp_mono ((outputFile_takes hfair).wp_writeAllLoop hsome (Nat.le_succ _) hfill)
        (fun r f hf => ?_) fun _ _ h => h.elim
      obtain ⟨rfl,hf⟩ := hf
      rw [if_neg (by omega)]
      refine wp_mono (ih (by rw [List.length_drop]; omega) hk hf) (fun _ t ht => ?_) fun _ _ h => h
      rw [List.append_assoc,List.take_append_drop] at ht
      exact ht

theorem wp_sendFile (hfair : sys.Fair) (hcl : Streams cl on shut) {input : Path} {content out inp : Str}
    (hturns : content.length < turns) {s : FileStream σ} (hon : on s.client inp out)
    (hfile : Reading fs input (s.disk,s.offset) content) :
    wp (sendFile sys cl input turns) (fun _ t => on t.client inp (out ++ content) ∧ t.disk.fs = fs)
      (fun _ _ => False) s := by
  induction turns generalizing s content out with
  | zero => omega
  | succ turns ih =>
    rw [sendFile,wp_bind,wp_run]
    obtain ⟨n,f,hn,_,hle,hread,hf⟩ := inputFile_read hfair COPY_CHUNK_SIZE hfile
    change wp ((inputFile sys input).read COPY_CHUNK_SIZE) _ _ (s.disk,s.offset)
    rw [wp_of_ok hread]
    simp only
    by_cases hcontent : content = []
    · subst hcontent
      rw [if_pos (by simpa using hle),List.append_nil]
      exact ⟨hon,hf.1⟩
    · have hpos := hn (by decide) hcontent
      have hlen : (content.take n).length = n := by
        rw [List.length_take]
        omega
      have hsome : content.take n ≠ [] := by
        rw [← List.length_pos_iff_ne_nil]
        omega
      rw [if_neg (by omega),wp_bind,wp_run]
      refine wp_mono ((hcl.writes inp).wp_writeAllLoop hsome (Nat.le_succ _) hon) (fun r k hk => ?_)
        fun _ _ h => h.elim
      obtain ⟨rfl,hk⟩ := hk
      rw [if_neg (by omega)]
      refine wp_mono (ih (by rw [List.length_drop]; omega) hk hf) (fun _ t ht => ?_) fun _ _ h => h
      rw [List.append_assoc,List.take_append_drop] at ht
      exact ht

theorem Streams.wp_filepath (hcl : Streams cl on shut) {rest out : Str} (hlen : filepath.length < 65536)
    {k : σ} (hon : on k (stringBytes filepath ++ rest) out) :
    wp cl.desc.readStringWithLen (fun r k' => r = filepath ∧ on k' rest out) (fun _ _ => False) k :=
  parses_string (hcl.reads out).readsSome hlen k rest hon

theorem Streams.wp_ok (hcl : Streams cl on shut) {inp out : Str} {k : σ} (hon : on k inp out) :
    wp (cl.desc.sendBaseResponse 0 0) (fun _ k' => on k' inp (out ++ [RESPONSE_OK])) (fun _ _ => False) k :=
  (hcl.writes inp).writes (by decide) k out hon

theorem wp_stores (hfair : sys.Fair) (hcl : Streams cl on shut) (hlen : filepath.length < 65536)
    {content : Str} (hturns : content.length < turns) {s : FileStream σ}
    (hspot : sys.spot s.disk.fs filepath = .ok (.name p c)) (hfree : ¬ s.disk.fs.has (p ++ [c]))
    (hend : ¬ endsWithSlash (cstr filepath)) (hon : on s.client (stringBytes filepath ++ content) []) :
    wp (readOrWriteFile sys cl turns 0) (fun _ _ => False) (fun e t => e = .threadExit ∧
      shut t.client [RESPONSE_OK] ∧
      Filling s.disk.fs p c (sys.masked 0o644) (t.disk,t.offset) content) s := by
  rw [readOrWriteFile,wp_bind,wp_run]
  refine wp_mono (hcl.wp_filepath hlen hon) (fun r k hk => ?_) fun _ _ h => h.elim
  obtain ⟨rfl,hk⟩ := hk
  have heffect := Kernel.makeEffect_free (n := .file [] (sys.masked 0o644)) hspot hfree hend
  have hnode := Change.node_put (n := .file [] (sys.masked 0o644))
    (FileSystem.canPut_free (Kernel.spot_name hspot) hfree)
  rw [if_neg (by simp),wp_bind,wp_run]
  change wp (sys.openExcl _ 0o644) _ _ s.disk
  rw [System.openExcl,System.wp_perform_granted (hfair.grants _),heffect]
  simp only [System.settled,openedForStream,wp_bind,wp_modify]
  rw [wp_run]
  refine wp_mono (hcl.wp_ok hk) (fun _ k' hk' => ?_) fun _ _ h => h.elim
  refine wp_mono (@wp_receiveFile _ _ _ _ _ s.disk.fs p c (sys.masked 0o644) _ hfair hcl _ [] _ hturns _ hk'
    ⟨(hnode _).trans (if_pos rfl),rfl,fun r hr => (hnode r).trans (if_neg hr)⟩)
    (fun _ t ht => ?_) fun _ _ h => h.elim
  obtain ⟨v,hclose,hshut⟩ := hcl.closes t.client [] _ ht.1
  rw [wp_run]
  change wp cl.close _ _ t.client
  rw [wp_of_ok hclose]
  exact ⟨rfl,hshut,ht.2⟩

theorem wp_fetches (hfair : sys.Fair) (hcl : Streams cl on shut) (hlen : filepath.length < 65536)
    {content : Str} (hturns : content.length < turns) {flags : Fin 8} (hflags : flags ≠ 0) {s : FileStream σ}
    {q : Path} (hfollow : sys.follow s.disk.fs filepath = .ok q)
    (hnode : s.disk.fs.node q = some (.file content mode)) (hon : on s.client (stringBytes filepath) []) :
    wp (readOrWriteFile sys cl turns flags) (fun _ _ => False) (fun e t => e = .threadExit ∧
      shut t.client (RESPONSE_OK :: content) ∧ t.disk.fs = s.disk.fs) s := by
  rw [readOrWriteFile,wp_bind,wp_run]
  rw [← List.append_nil (stringBytes filepath)] at hon
  refine wp_mono (hcl.wp_filepath hlen hon) (fun r k hk => ?_) fun _ _ h => h.elim
  obtain ⟨rfl,hk⟩ := hk
  have hstat : sys.statEffect r s.disk.fs = .ok (.file content mode,none) := by
    simp only [Kernel.statEffect,hfollow,Kernel.nodeAt,hnode,bind,Except.bind]
  have hopen : sys.openReadEffect r s.disk.fs = .ok (q,none) := by
    simp only [Kernel.openReadEffect,hfollow,bind,Except.bind]
    exact if_pos (FileSystem.has_iff.mpr ⟨_,hnode⟩)
  rw [if_pos hflags,wp_bind,wp_run]
  change wp (sys.stat _) _ _ s.disk
  rw [System.stat,System.wp_look,hstat]
  simp only [System.settled,Node.isDir,Bool.false_eq_true,if_false,wp_bind]
  rw [wp_run]
  change wp (sys.openRead _) _ _ (s.disk.done ⟨.stat r,none⟩)
  rw [System.openRead,System.wp_perform_granted (hfair.grants _)]
  change System.settled _ _ _ (sys.openReadEffect r s.disk.fs)
  rw [hopen]
  simp only [System.settled,openedForStream,wp_bind,wp_modify]
  rw [wp_run]
  refine wp_mono (hcl.wp_ok hk) (fun _ k' hk' => ?_) fun _ _ h => h.elim
  refine wp_mono (@wp_sendFile _ _ _ _ _ s.disk.fs turns hfair hcl q content _ _ hturns _ hk'
    ⟨rfl,content,mode,hnode,rfl⟩) (fun _ t ht => ?_) fun _ _ h => h.elim
  obtain ⟨v,hclose,hshut⟩ := hcl.closes t.client [] _ ht.1
  rw [wp_run]
  change wp cl.close _ _ t.client
  rw [wp_of_ok hclose]
  exact ⟨rfl,hshut,ht.2⟩

theorem wp_stores_taken (hfair : sys.Fair) (hcl : Streams cl on shut) (hlen : filepath.length < 65536)
    {inp : Str} {s : FileStream σ} (hspot : sys.spot s.disk.fs filepath = .ok (.name p c))
    (htaken : s.disk.fs.has (p ++ [c])) (hon : on s.client (stringBytes filepath ++ inp) []) :
    wp (readOrWriteFile sys cl turns 0) (fun _ t =>
      on t.client inp (RESPONSE_ERROR :: littleEndian 4 Errno.EEXIST.code) ∧ t.disk.fs = s.disk.fs)
      (fun _ _ => False) s := by
  rw [readOrWriteFile,wp_bind,wp_run]
  refine wp_mono (hcl.wp_filepath hlen hon) (fun r k hk => ?_) fun _ _ h => h.elim
  obtain ⟨rfl,hk⟩ := hk
  have heffect : sys.makeEffect r (.file [] (sys.masked 0o644)) s.disk.fs = .error .EEXIST := by
    simp only [Kernel.makeEffect,hspot,bind,Except.bind]
    exact if_pos htaken
  rw [if_neg (by simp),wp_bind,wp_run]
  change wp (sys.openExcl _ 0o644) _ _ s.disk
  rw [System.openExcl,System.wp_perform_granted (hfair.grants _),heffect]
  simp only [System.settled,openedForStream,sendErrorResponse,wp_run]
  have hprints : Prints (fun k' out => on k' inp out) (cl.desc.sendBaseResponse (-1) Errno.EEXIST.code)
      (RESPONSE_ERROR :: littleEndian 4 Errno.EEXIST.code) :=
    (@Descriptor.Takes.writes _ _ _ _ (hcl.writes inp) [RESPONSE_ERROR] (by decide)).bind fun _ =>
      (hcl.writes inp).writes (by decide)
  exact wp_mono (hprints k [] hk) (fun _ _ hk' => ⟨hk',rfl⟩) fun _ _ h => h

/-- What is streamed to a new file comes back byte for byte when the file is streamed, and it is not made
a second time: then the client gets an error and the session goes on. -/
theorem stream_round_trip (hfair : sys.Fair) (hcl : Streams cl on shut) (hlen : filepath.length < 65536)
    {content : Str} (hturns : content.length < turns) {s : FileStream σ}
    (hspot : sys.spot s.disk.fs filepath = .ok (.name p c)) (hfree : ¬ s.disk.fs.has (p ++ [c]))
    (hend : ¬ endsWithSlash (cstr filepath)) (hon : on s.client (stringBytes filepath ++ content) []) :
    ∃ t, readOrWriteFile sys cl turns 0 s = .error .threadExit t ∧ shut t.client [RESPONSE_OK] ∧
      t.disk.fs.node (p ++ [c]) = some (.file content (sys.masked 0o644)) ∧
      (∀ r, r ≠ p ++ [c] → t.disk.fs.node r = s.disk.fs.node r) ∧
      (∀ flags u, flags ≠ 0 → u.disk.fs = t.disk.fs → on u.client (stringBytes filepath) [] →
        ∃ v, readOrWriteFile sys cl turns flags u = .error .threadExit v ∧
          shut v.client (RESPONSE_OK :: content) ∧ v.disk.fs = t.disk.fs) ∧
      ∀ inp u, u.disk.fs = t.disk.fs → on u.client (stringBytes filepath ++ inp) [] →
        ∃ v, readOrWriteFile sys cl turns 0 u = .ok () v ∧
          on v.client inp (RESPONSE_ERROR :: littleEndian 4 Errno.EEXIST.code) ∧ v.disk.fs = t.disk.fs := by
  obtain ⟨_,t,ht,rfl,hshut,hfill⟩ :=
    error_of_wp (wp_stores hfair hcl hlen hturns hspot hfree hend hon)
  have hle : s.disk.fs.Le t.disk.fs := fun r n hn => by
    have hne : r ≠ p ++ [c] := fun he => hfree (FileSystem.has_iff.mpr ⟨n,he ▸ hn⟩)
    exact (hfill.others r hne).trans hn
  have hspot' : sys.spot t.disk.fs filepath = .ok (.name p c) := by
    unfold Kernel.spot at hspot ⊢
    split_ifs at hspot ⊢
    exact Kernel.spotFrom_le hle hspot
  have hglance : sys.glance t.disk.fs filepath = .ok (p ++ [c]) := by
    rw [Kernel.glance,if_neg hend,hspot']
    rfl
  refine ⟨t,ht,hshut,hfill.node,hfill.others,fun flags u hflags hu honu => ?_,fun inp u hu honu => ?_⟩
  · have hfollow := Kernel.follow_of_glance hglance hfill.node (by simp)
    rw [← hu] at hfollow
    obtain ⟨_,v,hv,rfl,hshut',hdisk⟩ := error_of_wp (wp_fetches hfair hcl hlen
      hturns hflags hfollow (by rw [hu]; exact hfill.node) honu)
    exact ⟨v,hv,hshut',hdisk.trans hu⟩
  · rw [← hu] at hspot'
    obtain ⟨⟨⟩,v,hv,honv,hdisk⟩ := ok_of_wp (wp_stores_taken hfair hcl hlen hspot'
      (by rw [hu]; exact FileSystem.has_iff.mpr ⟨_,hfill.node⟩) honu)
    exact ⟨v,hv,honv,hdisk.trans hu⟩

end Streams

structure ByteSocket where
  inp : Str
  given : Str
  out : Str
  isOpen : Bool
  deriving DecidableEq, Repr

namespace ByteSocket

def On (k : ByteSocket) (inp out : Str) : Prop := k.inp = inp ∧ k.out = out ∧ k.isOpen

def Shut (k : ByteSocket) (out : Str) : Prop := k.out = out ∧ k.isOpen = false

end ByteSocket

/-- Behind `inp` nothing comes any more. -/
def byteSocket : Descriptor Stop ByteSocket where
  read count := do
    let k ← get
    let curr := min 1 count
    set { k with inp := k.inp.drop curr, given := k.given ++ k.inp.take curr }
    pure ((k.inp.take curr).length,k.inp.take curr)
  write buf := do
    modify fun k => { k with out := k.out ++ buf.take 1 }
    pure (min 1 buf.length : Nat)
  close := modify fun k => { k with isOpen := false }
  threadExit := .threadExit
  diverges := .diverged

theorem byteSocket_honest : byteSocket.Honest := by
  intro count k _
  refine ⟨rfl,?_⟩
  rw [List.length_take]
  omega

theorem byteSocket_gives : byteSocket.Gives ByteSocket.given where
  read count k := by
    change k.given ++ k.inp.take (min 1 count) = k.given ++
      if ((k.inp.take (min 1 count)).length : Int) ≤ 0 then [] else k.inp.take (min 1 count)
    split
    · rename_i hle
      have hnil : k.inp.take (min 1 count) = [] := List.length_eq_zero_iff.mp (by omega)
      rw [hnil]
    · rfl
  write _ _ := rfl
  close _ := rfl

theorem byteSocket_streams : Streams byteSocket ByteSocket.On ByteSocket.Shut where
  reads out count k bs hcount hbs h := by
    obtain ⟨rfl,hout⟩ := h
    have hlen := List.length_pos_of_ne_nil hbs
    have hone : min 1 count = 1 := by omega
    refine ⟨1,{ k with inp := k.inp.drop 1, given := k.given ++ k.inp.take 1 },by omega,hcount,hlen,?_,rfl,
      hout⟩
    change EStateM.Result.ok (((k.inp.take (min 1 count)).length : Int),k.inp.take (min 1 count))
      { k with inp := k.inp.drop (min 1 count), given := k.given ++ k.inp.take (min 1 count) } = _
    rw [hone,List.length_take,Nat.min_eq_left hlen]
  ends count k out h := by
    obtain ⟨hinp,hout⟩ := h
    refine ⟨[],{ k with inp := [], given := k.given ++ [] },?_,rfl,hout⟩
    change EStateM.Result.ok (((k.inp.take (min 1 count)).length : Int),k.inp.take (min 1 count))
      { k with inp := k.inp.drop (min 1 count), given := k.given ++ k.inp.take (min 1 count) } = _
    rw [hinp,List.take_nil,List.drop_nil]
    rfl
  writes inp buf k cs hbuf h := by
    obtain ⟨hinp,rfl,hopen⟩ := h
    have hlen := List.length_pos_of_ne_nil hbuf
    have hone : min 1 buf.length = 1 := by omega
    refine ⟨1,{ k with out := k.out ++ buf.take 1 },by omega,hlen,?_,hinp,rfl,hopen⟩
    change EStateM.Result.ok ((min 1 buf.length : Nat) : Int) _ = _
    rw [hone]
  closes k inp out h := ⟨_,rfl,h.2.1,rfl⟩

/-- "/d/n" in a home directory without files, and what is to be in it. -/
def streamsByte : FileStream ByteSocket :=
  ⟨⟨stringBytes (text ['/','d','/','n']) ++ [7],[],[],true⟩,⟨emptyHome,[],0,0⟩,0⟩

theorem streamed_prefix_byte : Streamed .calm ByteSocket.given streamsByte
    (final (readOrWriteFile .calm byteSocket 2 0) streamsByte) :=
  streamed_prefix .calm byteSocket_honest byteSocket_gives 2 streamsByte

theorem stream_round_trip_byte :
    ∃ t, readOrWriteFile .calm byteSocket 2 0 streamsByte = .error .threadExit t ∧
      t.client.Shut [RESPONSE_OK] ∧
      t.disk.fs.node ([text ['d']] ++ [text ['n']]) = some (.file [7] (System.calm.masked 0o644)) ∧
      (∀ r, r ≠ [text ['d']] ++ [text ['n']] → t.disk.fs.node r = streamsByte.disk.fs.node r) ∧
      (∀ flags u, flags ≠ 0 → u.disk.fs = t.disk.fs →
        u.client.On (stringBytes (text ['/','d','/','n'])) [] →
        ∃ v, readOrWriteFile .calm byteSocket 2 flags u = .error .threadExit v ∧
          v.client.Shut (RESPONSE_OK :: [7]) ∧ v.disk.fs = t.disk.fs) ∧
      ∀ inp u, u.disk.fs = t.disk.fs → u.client.On (stringBytes (text ['/','d','/','n']) ++ inp) [] →
        ∃ v, readOrWriteFile .calm byteSocket 2 0 u = .ok () v ∧
          v.client.On inp (RESPONSE_ERROR :: littleEndian 4 Errno.EEXIST.code) ∧ v.disk.fs = t.disk.fs := by
  have hspot : System.calm.spot streamsByte.disk.fs (text ['/','d','/','n']) =
      .ok (.name [text ['d']] (text ['n'])) := by decide +kernel
  have hfree : ¬ streamsByte.disk.fs.has ([text ['d']] ++ [text ['n']]) := by decide +kernel
  exact stream_round_trip System.calm_fair byteSocket_streams (by decide) (by decide) hspot hfree (by decide)
    ⟨rfl,rfl,rfl⟩

end RootHelper
