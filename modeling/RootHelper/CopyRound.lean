import RootHelper.FileCopier
import RootHelper.Deletion

/-!
What one round of the copy task can do to the file system, read off the state it begins in: it
makes new things where nothing was, or carries out the decision about the destination, nothing
else.
-/

set_option autoImplicit false

namespace RootHelper
open Posix Control

variable (env : CopyEnv)

/-- The pair on top, when its destination is taken. -/
def conflictAt (s : CopyState) : Option (Pair × CflType) :=
  match s.S with
  | [] => none
  | pair :: _ =>
    if efdAt env.toKernel s.disk.fs pair.2 = .none then none
    else match efdAt env.toKernel s.disk.fs pair.1 with
      | .file => some (pair,.CONFLICT_TYPE_FILE)
      | .dir => some (pair,.CONFLICT_TYPE_DIR)
      | .none => none

def answerAt (s : CopyState) : Byte :=
  if s.sock.hears then s.sock.inp.headD 0 else env.unread s.questions

/-- The decision the round will carry out, kept or asked for. -/
def decisionAt (s : CopyState) : Option Decision :=
  (conflictAt env s).map fun c =>
    if (s.permanentDecs c.2).val = .NO_PREV_DEC then .ofByte (answerAt env s)
    else (s.permanentDecs c.2).val

/-- The name that follows an answer, for the answers that take one. -/
def newNameAt (s : CopyState) : Option Str :=
  if s.sock.hears then nextString s.sock.inp.tail else none

/-- The changes a round begun in `s` may make. -/
inductive RoundChange (s : CopyState) : FileSystem → Change → Prop
  | makes {f : FileSystem} {p : Path} {c : Name} {n : Node} :
      decisionAt env s = none → ¬ s.disk.fs.has (p ++ [c]) → RoundChange s f (.put p c n)
  | deletes {f : FileSystem} {pair : Pair} {rest : List Pair} {l q : Path} :
      s.S = pair :: rest →
      (decisionAt env s = some .CD_OVERWRITE ∨ decisionAt env s = some .CD_OVERWRITE_ALL) →
      env.glance s.disk.fs pair.2 = .ok l → l <+: q → RoundChange s f (.erase q)
  | renames {pair : Pair} {rest : List Pair} {newname : Str} {a q : Path} {c : Name} :
      s.S = pair :: rest → decisionAt env s = some .CD_REN_DEST → newNameAt s = some newname →
      Kernel.Renames env.toKernel s.disk.fs pair.2 (renamedPath pair.2 newname) a q c →
      RoundChange s s.disk.fs (.move a q c)
  | renamesFree {pair : Pair} {rest : List Pair} {a q : Path} {c : Name} {t : Str} :
      s.S = pair :: rest → decisionAt env s = some .CD_REN_DEST_ALL →
      Kernel.Renames env.toKernel s.disk.fs pair.2 t a q c → ¬ s.disk.fs.has (q ++ [c]) →
      RoundChange s s.disk.fs (.move a q c)

variable {env}
variable {s : CopyState}

/-- Between `s` and `t` the file system was changed in ways `P` allows only. -/
def GrownBy (P : FileSystem → Change → Prop) (s t : CopyState) : Prop :=
  Grown (Changes P) s.disk t.disk

instance (P : FileSystem → Change → Prop) : Std.Refl (GrownBy P) :=
  ⟨fun s => refl_of (Grown (Changes P)) s.disk⟩

instance (P : FileSystem → Change → Prop) : IsTrans CopyState (GrownBy P) :=
  ⟨fun _ _ _ h h' => trans_of (Grown (Changes P)) h h'⟩

section Parts

variable {P : FileSystem → Change → Prop} {α : Type}

theorem GrownBy.mono {P' : FileSystem → Change → Prop} {t : CopyState} (h : GrownBy P s t)
    (hP : ∀ f c, P f c → P' f c) : GrownBy P' s t :=
  Grown.mono h fun f _ he => he.mono (hP f)

theorem moves_aside {f : CopyState → CopyState} (h : ∀ s, (f s).disk = s.disk) :
    Moves (GrownBy P) (modify f : CopyM PUnit) := by
  refine moves_modify fun s => ?_
  rw [GrownBy,h]
  exact refl_of (Grown (Changes P)) s.disk

theorem moves_onSock (x : ConnM α) : Moves (GrownBy P) (onSock x) := by
  intro s
  rw [Leaves,onSock,wp_run]
  exact wp_trivial (fun _ _ => refl_of (GrownBy P) s) fun _ _ => refl_of (GrownBy P) s

theorem leaves_onDisk {x : DiskM α} (h : Leaves (Grown (Changes P) s.disk) x s.disk) :
    Leaves (GrownBy P s) (onDisk x) s := by
  rw [Leaves,onDisk,wp_run]
  exact h

theorem moves_send (c : Chunk) : Moves (GrownBy P) (send c) := moves_onSock _

theorem moves_push (pairs : List Pair) : Moves (GrownBy P) (push pairs) :=
  moves_aside fun _ => rfl

theorem moves_waitConflictOrErrorDec (srcI destI : Str) (isConflict : Bool) :
    Moves (GrownBy P) (waitConflictOrErrorDec env srcI destI isConflict) := by
  refine (moves_send _).bind fun _ => (moves_onSock _).bind fun _ => (moves_onSock _).bind fun _ => ?_
  refine moves_get.bind fun _ => (moves_send _).bind fun _ => (moves_send _).bind fun _ => ?_
  refine (moves_aside (by intro _; rfl)).bind fun _ => ?_
  refine (moves_onSock _).bind fun r => ?_
  cases r <;> exact moves_pure _

theorem moves_unsolvableError (srcI destI : Str) :
    Moves (GrownBy P) (unsolvableError env srcI destI) :=
  (moves_waitConflictOrErrorDec _ _ _).bind fun _ => (moves_throw _).ite (moves_pure _)

theorem moves_sendSkipInfo (srcI : Str) : Moves (GrownBy P) (sendSkipInfo srcI) :=
  (moves_send _).bind fun _ => moves_get.bind fun _ => (moves_send _).bind fun _ => moves_send _

theorem moves_pushChildrenPairs (srcI destI : Str) :
    Moves (GrownBy P) (pushChildrenPairs env srcI destI) := by
  refine Moves.bind ?_ fun _ => moves_push _
  intro s
  rw [Leaves,listChildrenPairs,wp_bind,onDisk,wp_run]
  exact wp_listPlain _ (fun d' h _ => h.grown) fun entries d' h _ _ => h.grown

theorem wp_nonExistingDest {destI : Str} {d : Disk} {Q : Str → Disk → Prop}
    {E : Stop → Disk → Prop}
    (hQ : ∀ dest d', Quiet d d' → efdAt env.toKernel d.fs dest = .none → Q dest d')
    (hE : ∀ d', Quiet d d' → E .diverged d') : wp (nonExistingDest env destI) Q E d := by
  have search : ∀ n count dest d₀, Quiet d d₀ →
      wp (freeName env (getParentDir destI) (getFilenameFromFullPath destI) n count dest) Q E d₀ := by
    intro n
    induction n with
    | zero => exact fun _ _ d₀ h => hE d₀ h
    | succ n ih =>
      intro count dest d₀ h
      rw [freeName,wp_bind]
      refine wp_existsIsFileIsDir_ fun d₁ h₁ => ?_
      rw [h.fs_eq]
      have h₁ := trans_of Quiet h h₁
      cases he : efdAt env.toKernel d.fs dest with
      | none => exact hQ dest d₁ h₁ he
      | file => exact ih _ _ d₁ h₁
      | dir => exact ih _ _ d₁ h₁
  simp only [nonExistingDest,wp_bind,wp_get]
  exact search _ _ _ d (refl_of Quiet d)

theorem leaves_rename {destI t : Str} {d : Disk}
    (h : ∀ a q c, Kernel.Renames env.toKernel d.fs destI t a q c → P d.fs (.move a q c)) :
    Leaves (Grown (Changes P) d) (env.rename destI t : DiskM _) d := by
  refine System.wp_perform (fun _ => grown_failed fun _ hc => by simp at hc) ?_
  intro u ch hk
  refine grown_done fun c hc => ?_
  simp only at hc
  rcases Kernel.renameEffect_renames hk with rfl | ⟨a,q,n,rfl,hr⟩
  · simp at hc
  · obtain rfl : Change.move a q n = c := by simpa using hc
    exact h a q n hr

theorem leaves_autoRenameDest {srcI destI : Str}
    (h : ∀ t a q c, Kernel.Renames env.toKernel s.disk.fs destI t a q c →
      ¬ s.disk.fs.has (q ++ [c]) → P s.disk.fs (.move a q c)) :
    Leaves (GrownBy P s) (autoRenameDest env srcI destI) s := by
  rw [Leaves,autoRenameDest,wp_bind,onDisk,wp_run]
  refine wp_nonExistingDest (fun dest d₁ h₁ hfree => ?_) (fun d₁ h₁ => h₁.grown)
  rw [wp_bind]
  have hg : GrownBy P s { s with disk := d₁ } := h₁.grown
  have hfree' : ∀ r, env.glance s.disk.fs dest = .ok r → ¬ s.disk.fs.has r :=
    not_has_of_efdAt hfree
  have hren : Leaves (GrownBy P s) (onDisk (env.rename destI dest)) { s with disk := d₁ } := by
    refine Leaves.since hg (leaves_onDisk ?_)
    refine leaves_rename fun a q c hr => ?_
    rw [show ({ s with disk := d₁ } : CopyState).disk.fs = s.disk.fs from h₁.fs_eq] at hr ⊢
    exact h dest a q c hr (hr.free hfree')
  refine wp_mono hren (fun r t ht => ?_) fun _ _ ht => ht
  cases r with
  | ok u => exact Leaves.since ht (moves_push _ t)
  | error e => exact Leaves.since ht (moves_unsolvableError _ _ t)

/-- `P` allows what carrying out `dec` on `destI` may change, from `fs` and what the client still
sends. -/
structure Allows (env : CopyEnv) (P : FileSystem → Change → Prop) (fs : FileSystem) (k : Conn)
    (destI : Str) (dec : Decision) : Prop where
  delete : dec = .CD_OVERWRITE ∨ dec = .CD_OVERWRITE_ALL → ∀ f c,
    Deletes env.toKernel fs destI f c → P f c
  rename : dec = .CD_REN_DEST → ∀ newname a q c, k.closed = false →
    nextString k.inp = some newname →
    Kernel.Renames env.toKernel fs destI (renamedPath destI newname) a q c → P fs (.move a q c)
  free : dec = .CD_REN_DEST_ALL → ∀ t a q c, Kernel.Renames env.toKernel fs destI t a q c →
    ¬ fs.has (q ++ [c]) → P fs (.move a q c)

theorem leaves_handleConflict {srcI destI : Str} {dec : Decision} {t : CflType}
    (h : Allows env P s.disk.fs s.sock destI dec) :
    Leaves (GrownBy P s) (handleConflict env srcI destI dec t) s := by
  unfold handleConflict
  rw [Leaves,wp_bind]
  have hrecord : wp (recordDecision dec t)
      (fun _ u => u.disk = s.disk ∧ u.sock = s.sock) (fun _ _ => False) s := by
    unfold recordDecision
    split <;> exact ⟨rfl,rfl⟩
  refine wp_mono hrecord (fun _ u hu => ?_) (fun _ _ h => h.elim)
  obtain ⟨hd,hk⟩ := hu
  have hsu : GrownBy P s u := by
    rw [GrownBy,hd]
    exact refl_of (Grown (Changes P)) s.disk
  rw [← hd,← hk] at h
  clear hd hk hrecord
  have delete : dec = .CD_OVERWRITE ∨ dec = .CD_OVERWRITE_ALL → Leaves (GrownBy P u) (do
      if (← onDisk (genericDeleteBasicImpl env.toSystem destI)) < 0 then
        unsolvableError env srcI destI
      else push [(srcI,destI)]) u := by
    intro hdec
    rw [Leaves,wp_bind]
    have hdel : Leaves (GrownBy (Deletes env.toKernel u.disk.fs destI) u)
        (onDisk (genericDeleteBasicImpl env.toSystem destI)) u :=
      leaves_onDisk genericDeleteBasicImpl_deletes
    refine wp_mono hdel (fun r v hv => ?_) fun _ v hv => hv.mono (h.delete hdec)
    have huv := hv.mono (h.delete hdec)
    rw [wp_ite]
    exact ⟨fun _ => Leaves.since huv (moves_unsolvableError _ _ v),
      fun _ => Leaves.since huv (moves_push _ v)⟩
  refine Leaves.since hsu ?_
  cases dec with
  | CD_SKIP => exact moves_sendSkipInfo srcI u
  | CD_SKIP_ALL => exact moves_sendSkipInfo srcI u
  | CD_OVERWRITE => exact delete (.inl rfl)
  | CD_OVERWRITE_ALL => exact delete (.inr rfl)
  | CD_REN_DEST_ALL => exact leaves_autoRenameDest (h.free rfl)
  | CD_REN_DEST =>
    simp only [wp_bind,onSock,wp_run]
    refine wp_readStringWithLen (fun newname hopen hname => ?_)
      fun k _ => refl_of (Grown (Changes P)) u.disk
    have hren : Leaves (GrownBy P u) (onDisk (env.rename destI (renamedPath destI newname)))
        (sockLens.set u { u.sock with inp := u.sock.inp.drop (2 + newname.length) }) := by
      refine leaves_onDisk ?_
      exact leaves_rename fun a q c => h.rename rfl newname a q c hopen hname
    refine wp_mono hren (fun r v hv => ?_) fun _ _ hv => hv
    cases r with
    | ok _ => exact Leaves.since hv (moves_push _ v)
    | error e => exact Leaves.since hv (moves_unsolvableError _ _ v)
  | CD_REN_SRC_ALL =>
    simp only [autoRenameSrc,wp_bind,onDisk,wp_run]
    exact wp_nonExistingDest (fun _ d h _ => h.grown) fun d h => h.grown
  | CD_REN_SRC =>
    simp only [wp_bind,onSock,wp_run]
    exact wp_readStringWithLen (fun _ _ _ => refl_of (Grown (Changes P)) u.disk)
      fun _ _ => refl_of (Grown (Changes P)) u.disk
  | CD_MERGE => exact moves_pushChildrenPairs srcI destI u
  | CD_MERGE_ALL => exact moves_pushChildrenPairs srcI destI u
  | CD_CANCEL => exact refl_of (GrownBy P) u
  | CD_MERGE_RECURSIVE => exact refl_of (GrownBy P) u
  | NO_PREV_DEC => exact refl_of (GrownBy P) u
  | unknown code => exact refl_of (GrownBy P) u

/-! ### Copying -/

def At (p : Path) (c : Name) (_ : FileSystem) (ch : Change) : Prop := ∃ n, ch = .put p c n

theorem readEffect_quiet {amount : Int} {p : Path} {off count : Nat} {fs : FileSystem} {b : Str}
    {ch : Option Change} (h : Kernel.readEffect amount p off count fs = .ok (b,ch)) :
    ch = none := by
  unfold Kernel.readEffect at h
  split at h
  · split_ifs at h
    simp only [Except.ok.injEq,Prod.mk.injEq] at h
    exact h.2.symm
  · simp at h
  · simp at h

theorem writeEffect_at {amount : Int} {p : Path} {c : Name} {off : Nat} {bytes : Str}
    {fs : FileSystem} {n : Nat} {ch : Option Change}
    (h : Kernel.writeEffect amount p c off bytes fs = .ok (n,ch)) :
    ∀ x, ch = some x → At p c fs x := by
  unfold Kernel.writeEffect at h
  split_ifs at h
  · simp only [Except.ok.injEq,Prod.mk.injEq] at h
    simp [← h.2]
  · obtain ⟨⟨u,ch'⟩,hf,h⟩ := ok_of_bind h
    obtain ⟨content,m,_,rfl⟩ := Kernel.fileEffect_ok hf
    simp only [Except.ok.injEq,Prod.mk.injEq] at h
    intro x hx
    rw [← h.2] at hx
    exact ⟨_,(Option.some.inj hx).symm⟩

theorem sendfileEffect_at {amount : Int} {input p : Path} {c : Name} {i o count : Nat}
    {fs : FileSystem} {n : Nat} {ch : Option Change}
    (h : Kernel.sendfileEffect amount input p c i o count fs = .ok (n,ch)) :
    ∀ x, ch = some x → At p c fs x := by
  obtain ⟨_,_,h⟩ := ok_of_bind h
  exact writeEffect_at h

theorem moves_copyChunk (input : Path) (output : Path × Name) (i o : Nat) :
    Moves (Grown (Changes (At output.1 output.2))) (copyChunk env input output i o) := by
  have sent : Moves (Grown (Changes (At output.1 output.2)))
      (env.sendfile input output.1 output.2 i o COPY_CHUNK_SIZE : DiskM _) := fun d =>
    System.moves_perform (fun _ _ hc => by simp at hc)
      (fun _ _ _ hk c hc => sendfileEffect_at hk c hc) d
  have read : Moves (Grown (Changes (At output.1 output.2)))
      (env.read input i COPY_CHUNK_SIZE : DiskM _) := fun d =>
    System.moves_perform (fun _ _ hc => by simp at hc)
      (fun _ _ _ hk c hc => by simp [readEffect_quiet hk] at hc) d
  have written : ∀ buf, Moves (Grown (Changes (At output.1 output.2)))
      (env.write output.1 output.2 o buf : DiskM _) := fun buf d =>
    System.moves_perform (fun _ _ hc => by simp at hc)
      (fun _ _ _ hk c hc => writeEffect_at hk c hc) d
  unfold copyChunk
  cases env.platform with
  | android32 =>
    refine read.bind fun r => ?_
    match r with
    | .error _ => exact moves_pure _
    | .ok [] => exact moves_pure _
    | .ok (b :: buf) =>
      refine (written (b :: buf)).bind fun w => ?_
      cases w <;> exact moves_pure _
  | linux => exact sent.bind fun r => by cases r <;> exact moves_pure _
  | apple => exact sent.bind fun r => by cases r <;> exact moves_pure _
  | bsd => exact sent.bind fun r => by cases r <;> exact moves_pure _

theorem moves_copyChunks (input : Path) (output : Path × Name) (n i o progress : Nat) :
    Moves (GrownBy (At output.1 output.2)) (copyChunks env input output n i o progress) := by
  induction n generalizing i o progress with
  | zero => exact moves_throw _
  | succ n ih =>
    have chunk : Moves (GrownBy (At output.1 output.2)) (onDisk (copyChunk env input output i o)) :=
      fun s => leaves_onDisk (moves_copyChunk input output i o s.disk)
    refine chunk.bind fun r => (moves_pure _).ite ?_
    exact (moves_send _).bind fun _ => ih _ _ _

theorem moves_copyContent (input : Path) (output : Path × Name) :
    Moves (GrownBy (At output.1 output.2)) (copyContent env input output) := by
  refine moves_get.bind fun _ => (moves_send _).bind fun _ => ?_
  refine (moves_copyChunks _ _ _ _ _ _).bind fun _ => (moves_send _).bind fun _ => ?_
  refine moves_get.bind fun u => Moves.bind (fun v => leaves_onDisk ?_) fun _ => moves_pure _
  refine System.moves_perform (fun _ _ hc => by simp at hc) ?_ _
  intro f a ch hk c hc
  obtain ⟨_,_,_,rfl⟩ := Kernel.fileEffect_ok hk
  exact ⟨_,(Option.some.inj hc).symm⟩

/-- Changes at names that were free in `f₀`. -/
def Makes (f₀ : FileSystem) (_ : FileSystem) (ch : Change) : Prop :=
  ∃ p c n, ch = .put p c n ∧ ¬ f₀.has (p ++ [c])

theorem wp_oscopyfile {source destination : Str}
    (h : efdAt env.toKernel s.disk.fs destination = .none) :
    wp (oscopyfile env source destination)
      (fun r t => GrownBy (Makes s.disk.fs) s t ∧ ∀ t, r ≠ .conflict t)
      (fun _ t => GrownBy (Makes s.disk.fs) s t) s := by
  unfold oscopyfile
  rw [wp_bind,onDisk,wp_run]
  refine wp_mono (System.moves_openRead source s.disk) (fun r d₁ h₁ => ?_) fun _ _ h₁ => h₁.grown
  have hg₁ : GrownBy (Makes s.disk.fs) s (diskLens.set s d₁) := h₁.grown
  cases r with
  | error e => exact ⟨hg₁,by simp⟩
  | ok input =>
    rw [wp_bind,onDisk,wp_run]
    refine System.wp_perform (fun e => ⟨?_,by simp⟩) (fun output ch hk => ?_)
    · exact trans_of (Grown _) hg₁ (grown_failed fun _ hc => by simp at hc)
    · have hfs : (diskLens.get (diskLens.set s d₁)).fs = s.disk.fs := h₁.fs_eq
      rw [hfs] at hk
      obtain ⟨_,hfree,hch⟩ := Kernel.openCreateEffect_free hk (not_has_of_efdAt h)
      have hat : ∀ f c, At output.1 output.2 f c → Makes s.disk.fs f c := by
        intro f c hc
        obtain ⟨n,rfl⟩ := hc
        exact ⟨_,_,_,rfl,hfree⟩
      have hg₂ : GrownBy (Makes s.disk.fs) s
          (diskLens.set s (d₁.done ⟨.openCreate destination 0o644,ch⟩)) := by
        refine trans_of (Grown _) hg₁ (grown_done fun c hc => ?_)
        rw [hch] at hc
        exact hat _ _ ⟨_,(Option.some.inj hc).symm⟩
      rw [wp_bind]
      refine wp_mono (moves_copyContent input output _) (fun _ t ht => ⟨?_,by simp⟩) fun _ t ht => ?_
      · exact trans_of (GrownBy _) hg₂ (ht.mono hat)
      · exact trans_of (GrownBy _) hg₂ (ht.mono hat)

/-- New directories are made where nothing was, and nothing is in the way of that afterwards. -/
theorem grown_makes_of_makesDir {d d' : Disk} (h : Grown (Changes MakesDir) d d') :
    Grown (Changes (Makes d.fs)) d d' := by
  obtain ⟨es,hlog,hist⟩ := h
  refine ⟨es,hlog,?_⟩
  have hkeep := @History.strengthen _ (Changes (Makes d.fs)) _ _ _
    (fun f => ∀ r, d.fs.has r → f.has r) hist (fun _ h => h) ?_
  · exact hkeep.2
  · intro f e hI he
    have hmade : Changes (Makes d.fs) f e := by
      intro c hc
      obtain ⟨p,n,m,rfl,hfree⟩ := he c hc
      exact ⟨p,n,_,rfl,fun hh => hfree (hI _ hh)⟩
    refine ⟨fun r hr => ?_,hmade⟩
    have hsame : (e.apply f).node r = f.node r := by
      refine Event.node_apply fun ht => ?_
      obtain ⟨c,hc,ht⟩ := ht
      obtain ⟨p,n,m,rfl,hfree⟩ := he c hc
      obtain rfl : r = p ++ [n] := ht
      exact hfree (hI _ hr)
    have := hI r hr
    simpa only [FileSystem.has,hsame] using this

theorem wp_makeDestDir (srcI destI : Str) :
    wp (makeDestDir env srcI destI)
      (fun r t => GrownBy (Makes s.disk.fs) s t ∧ ∀ t, r ≠ .conflict t)
      (fun _ t => GrownBy (Makes s.disk.fs) s t) s := by
  unfold makeDestDir
  rw [wp_bind]
  have hmk : Leaves (GrownBy (Makes s.disk.fs) s)
      (onDisk (mkpath env.toSystem destI defaultMode true)) s := by
    refine leaves_onDisk (wp_mono (moves_mkpath _ _ _ _ s.disk) ?_ ?_)
    · exact fun _ _ h => grown_makes_of_makesDir h
    · exact fun _ _ h => grown_makes_of_makesDir h
  refine wp_mono hmk (fun r t ht => ?_) fun _ _ ht => ht
  rw [wp_ite]
  refine ⟨fun _ => ⟨ht,by simp⟩,fun _ => ?_⟩
  rw [wp_bind]
  exact wp_mono (Leaves.since ht (moves_pushChildrenPairs srcI destI t))
    (fun _ _ hu => ⟨hu,by simp⟩) fun _ _ hu => hu

end Parts

theorem wp_send {c : Chunk} {Q : Unit → CopyState → Prop} {E : Stop → CopyState → Prop}
    (hQ : ∀ k, Told s.sock k → k.closed = s.sock.closed → Q () { s with sock := k })
    (hE : ∀ k, Told s.sock k → E .threadExit { s with sock := k }) : wp (send c) Q E s := by
  rw [send,onSock,wp_run]
  exact wp_writeAllOrExit hQ hE

theorem wp_send_iff {c : Chunk} (hc : c.encode ≠ []) {Q : Unit → CopyState → Prop}
    {E : Stop → CopyState → Prop} :
    wp (send c) Q E s ↔ (s.sock.takes 1 → Q () { s with sock := s.sock.sent [c] }) ∧
      (¬ s.sock.takes 1 → E .threadExit { s with sock := { s.sock with closed := true } }) := by
  rw [send,wp_onSock]
  exact wp_writeAllOrExit_iff hc

theorem wp_sendString {str : Str} {Q : Unit → CopyState → Prop} {E : Stop → CopyState → Prop}
    (hQ : ∀ k, Told s.sock k → k.closed = s.sock.closed → Q () { s with sock := k })
    (hE : ∀ k, Told s.sock k → E .threadExit { s with sock := k }) :
    wp (onSock (writeStringWithLen str)) Q E s := by
  rw [onSock,wp_run]
  exact wp_writeStringWithLen hQ hE

/-- The question is put, and its answer is the next byte, or what the variable held. -/
theorem wp_waitConflictOrErrorDec {srcI destI : Str} {isConflict : Bool}
    {Q : Byte → CopyState → Prop} {E : Stop → CopyState → Prop}
    (hQ : ∀ k : Conn, s.sock.out ++ [.u64 (if isConflict then CFL_ind else ERR_ind)] <+: k.out →
      k.closed = s.sock.closed → k.inp = (if s.sock.hears then s.sock.inp.tail else s.sock.inp) →
      Q (answerAt env s) { s with sock := k, questions := s.questions+1 })
    (hE : ∀ k, Told s.sock k → E .threadExit { s with sock := k }) :
    wp (waitConflictOrErrorDec env srcI destI isConflict) Q E s := by
  simp only [waitConflictOrErrorDec,wp_bind,wp_get,wp_modify]
  generalize (if isConflict then CFL_ind else ERR_ind) = kind at *
  rw [wp_send_iff (by simp [Chunk.encode,littleEndian])]
  refine ⟨fun _ => ?_,fun _ => hE _ ⟨rfl,List.prefix_rfl,fun _ => rfl⟩⟩
  generalize hk₁ : s.sock.sent [.u64 kind] = k₁
  have h₁ : Told s.sock k₁ := by
    subst hk₁
    exact ⟨rfl,List.prefix_append _ _,id⟩
  have c₁ : k₁.closed = s.sock.closed := by rw [← hk₁]; rfl
  have o₁ : k₁.out = s.sock.out ++ [.u64 kind] := by
    rw [← hk₁]
    rfl
  clear hk₁
  refine wp_sendString (fun k₂ h₂ c₂ => ?_) fun k h => hE k (trans_of Told h₁ h)
  refine wp_sendString (fun k₃ h₃ c₃ => ?_) fun k h => hE k (trans_of Told h₁ (trans_of Told h₂ h))
  have h₃ := trans_of Told h₂ h₃
  refine wp_send (fun k₄ h₄ c₄ => ?_) fun k h => hE k (trans_of Told h₁ (trans_of Told h₃ h))
  have h₄ := trans_of Told h₃ h₄
  refine wp_send (fun k₅ h₅ c₅ => ?_) fun k h => hE k (trans_of Told h₁ (trans_of Told h₄ h))
  have h₅ := trans_of Told h₄ h₅
  obtain ⟨hinp,_,_⟩ := trans_of Told h₁ h₅
  have hout : s.sock.out ++ [.u64 kind] <+: k₅.out := o₁ ▸ h₅.2.1
  have hclosed : k₅.closed = s.sock.closed := by
    rw [c₅,c₄,c₃,c₂,c₁]
  have hhears : k₅.hears = s.sock.hears := by simp only [Conn.hears,hclosed,hinp]
  rw [wp_onSock,wp_readByte]
  unfold answerAt at hQ
  cases hh : s.sock.hears with
  | false =>
    have hk : k₅.hears = false := hhears.trans hh
    simp only [hk,hh] at hQ ⊢
    exact hQ k₅ hout hclosed hinp
  | true =>
    have hk : k₅.hears = true := hhears.trans hh
    have hfirst : s.sock.inp.head? = some (s.sock.inp.headD 0) := by
      cases hi : s.sock.inp with
      | nil => simp [Conn.hears,hi] at hh
      | cons b rest => rfl
    simp only [hk,if_true,hh,hinp,hfirst] at hQ ⊢
    exact hQ { k₅ with inp := s.sock.inp.tail } hout hclosed rfl

/-- The disk once both paths of a pair were looked at. -/
def CopyEnv.checked (env : CopyEnv) (d : Disk) (pair : Pair) : Disk :=
  final (existsIsFileIsDir_ env.toSystem pair.2) (final (existsIsFileIsDir_ env.toSystem pair.1) d)

/-- The state in which a round goes on with its pair. -/
def CopyEnv.begins (env : CopyEnv) (s : CopyState) (pair : Pair) (rest : List Pair) : CopyState :=
  { s with S := rest, disk := env.checked s.disk pair }

theorem efdAt_quiet (path : Str) (d : Disk) :
    Quiet d (final (existsIsFileIsDir_ env.toSystem path) d) :=
  leaves_iff.mp (wp_existsIsFileIsDir_ fun _ h => h)

theorem checked_quiet (d : Disk) (pair : Pair) : Quiet d (env.checked d pair) :=
  trans_of Quiet (efdAt_quiet pair.1 d) (efdAt_quiet pair.2 _)

/-- What makes a destination that is not there, for a source of this kind. -/
inductive Making (env : CopyEnv) (pair : Pair) : Efd → CopyM CopyRet → Prop
  | file : Making env pair .file (oscopyfile env pair.1 pair.2)
  | dir : Making env pair .dir (makeDestDir env pair.1 pair.2)

/-- A round finds its source gone, or its destination free, which is then made, or taken: then it
asks, or does what was decided for all. -/
theorem wp_copyRound_cases {pair : Pair} {rest : List Pair} {E : Stop → CopyState → Prop}
    {Q : Option Ending → CopyState → Prop} (hS : s.S = pair :: rest)
    (hgone : efdAt env.toKernel s.disk.fs pair.1 = .none → Q (some .sourceGone)
      { s with S := rest, disk := final (existsIsFileIsDir_ env.toSystem pair.1) s.disk })
    (hnoted : ∀ u info progress, Q none u →
      Q none { u with lastCEInfo := info, currentProgress := progress })
    (hfree : ∀ efd body, efdAt env.toKernel s.disk.fs pair.1 = efd → Making env pair efd body →
      efdAt env.toKernel s.disk.fs pair.2 = .none → wp body
        (fun r u => r = .OK_TYPE ∧ Q none u ∨ r = .UNSOLVABLE_ERROR_TYPE ∧ ∀ info,
          wp (unsolvableError env pair.1 pair.2) (fun _ v => Q none v) E { u with lastCEInfo := info })
        E (env.begins s pair rest))
    (hask : ∀ t, conflictAt env s = some (pair,t) → (s.permanentDecs t).val = .NO_PREV_DEC →
      ∀ info, wp (do
          let dec ← waitConflictOrErrorDec env pair.1 pair.2 true
          handleConflict env pair.1 pair.2 (.ofByte dec) t)
        (fun _ u => Q none u) E { env.begins s pair rest with lastCEInfo := info })
    (hkept : ∀ t, conflictAt env s = some (pair,t) → (s.permanentDecs t).val ≠ .NO_PREV_DEC →
      wp (if (s.permanentDecs t).val = .CD_SKIP_ALL then sendSkipInfo pair.1
          else handleConflict env pair.1 pair.2 (s.permanentDecs t).val t)
        (fun _ u => Q none u) E (env.begins s pair rest)) :
    wp (copyRound env) Q E s := by
  have settled : ∀ {efd : Efd} (srcType : Byte) (u : CopyState), Q none u →
      wp (noteError pair.1 pair.2 srcType (efdAt env.toKernel s.disk.fs pair.2) .OK_TYPE)
        (fun r v => wp (settlePair env pair efd r) (fun _ w => Q none w) E v) E u := by
    intro efd srcType u hu
    simp only [noteError,settlePair,if_true,wp_pure,wp_ite,wp_modify]
    exact ⟨fun _ => hnoted u u.lastCEInfo _ hu,fun _ => hu⟩
  -- what follows is the same for files and directories
  have item : ∀ {efd : Efd} {srcType : Byte} {t : CflType} {body : CopyM CopyRet},
      efdAt env.toKernel s.disk.fs pair.1 = efd → Making env pair efd body →
      (efdAt env.toKernel s.disk.fs pair.2 ≠ .none → conflictAt env s = some (pair,t)) →
      wp (do
        let destEfd ← onDisk (existsIsFileIsDir_ env.toSystem pair.2)
        let retval ← if destEfd = .none then body else onExisting env pair.1 pair.2 t
        noteError pair.1 pair.2 srcType destEfd retval)
        (fun r u => wp (settlePair env pair efd r) (fun _ v => Q none v) E u) E
        { s with S := rest, disk := final (existsIsFileIsDir_ env.toSystem pair.1) s.disk } := by
    intro efd srcType t body he hmaking hcfl
    rw [wp_bind,wp_onDisk]
    refine wp_existsIsFileIsDir_final fun _ => ?_
    simp only [(efdAt_quiet pair.1 s.disk).fs_eq]
    change wp _ _ _ (env.begins s pair rest)
    by_cases hn : efdAt env.toKernel s.disk.fs pair.2 = .none
    · rw [if_pos hn,wp_bind]
      refine wp_mono (hfree efd body he hmaking hn) (fun r u hu => ?_) fun _ _ h => h
      rcases hu with ⟨rfl,hu⟩ | ⟨rfl,hu⟩
      · exact settled srcType u hu
      · have hne : CopyRet.UNSOLVABLE_ERROR_TYPE ≠ .OK_TYPE := by simp
        simp only [noteError,settlePair,if_neg hne,wp_bind,wp_modify,wp_pure]
        exact hu _
    · rw [if_neg hn,wp_bind,onExisting,wp_bind,wp_get]
      by_cases hno : (s.permanentDecs t).val = .NO_PREV_DEC
      · change wp (if (s.permanentDecs t).val = .NO_PREV_DEC then _ else _) _ _ _
        have hne : CopyRet.conflict t ≠ .OK_TYPE := by simp
        simp only [if_pos hno,noteError,settlePair,if_neg hne,wp_pure]
        rw [wp_bind,wp_modify]
        exact hask t (hcfl hn) hno _
      · change wp (if (s.permanentDecs t).val = .NO_PREV_DEC then _ else _) _ _ _
        have hdone := hkept t (hcfl hn) hno
        rw [if_neg hno,wp_ite]
        refine ⟨fun hskip => ?_,fun hskip => ?_⟩
        · change (s.permanentDecs t).val = .CD_SKIP_ALL at hskip
          rw [if_pos hskip] at hdone
          rw [wp_bind]
          exact wp_mono hdone (fun _ u hu => settled srcType u hu) fun _ _ h => h
        · change ¬ (s.permanentDecs t).val = .CD_SKIP_ALL at hskip
          rw [if_neg hskip] at hdone
          rw [wp_bind]
          exact wp_mono hdone (fun _ u hu => settled srcType u hu) fun _ _ h => h
  unfold copyRound
  simp only [wp_bind,wp_get,hS,wp_set]
  rw [wp_onDisk]
  refine wp_existsIsFileIsDir_final fun _ => ?_
  cases he : efdAt env.toKernel s.disk.fs pair.1 with
  | none => exact hgone he
  | file =>
    have hitem := @item .file 0x00 .CONFLICT_TYPE_FILE _ he .file fun hn => by
      simp [conflictAt,hS,hn,he]
    simp only [wp_bind]
    exact hitem
  | dir =>
    have hitem := @item .dir 0x01 .CONFLICT_TYPE_DIR _ he .dir fun hn => by
      simp [conflictAt,hS,hn,he]
    simp only [wp_bind]
    exact hitem

theorem RoundChange.of_makes {f : FileSystem} {c : Change} (hd : decisionAt env s = none)
    (h : Makes s.disk.fs f c) : RoundChange env s f c := by
  obtain ⟨p,n,nd,rfl,hfree⟩ := h
  exact .makes hd hfree

theorem decisionAt_of_conflict {pair : Pair} {t : CflType}
    (ht : conflictAt env s = some (pair,t)) {dec : Decision}
    (hdec : dec = if (s.permanentDecs t).val = .NO_PREV_DEC then .ofByte (answerAt env s)
      else (s.permanentDecs t).val) : decisionAt env s = some dec := by
  rw [decisionAt,ht,hdec]
  rfl

/-- A round may carry out the decision it finds: kept for the kind of conflict it meets, … -/
theorem allows_kept {pair : Pair} {rest : List Pair} {t : CflType} (hS : s.S = pair :: rest)
    (ht : conflictAt env s = some (pair,t)) (hkept : (s.permanentDecs t).val ≠ .NO_PREV_DEC) :
    Allows env (RoundChange env s) s.disk.fs s.sock pair.2 (s.permanentDecs t).val := by
  have hdec : decisionAt env s = some (s.permanentDecs t).val :=
    decisionAt_of_conflict ht (if_neg hkept).symm
  have hnot : (s.permanentDecs t).val ≠ .CD_REN_DEST := by
    intro h
    rcases (s.permanentDecs t).property with h' | h' <;> simp [h,Decision.isForAll] at h'
  refine ⟨fun h f c hc => ?_,fun h => absurd h hnot,fun h t a q c hr hfree => ?_⟩
  · obtain ⟨l,q,hl,rfl,hpre⟩ := hc
    exact .deletes hS (by simpa [hdec] using h) hl hpre
  · exact .renamesFree hS (by rw [hdec,h]) hr hfree

theorem allows_answered {pair : Pair} {rest : List Pair} {t : CflType} {k : Conn}
    (hS : s.S = pair :: rest) (ht : conflictAt env s = some (pair,t))
    (hask : (s.permanentDecs t).val = .NO_PREV_DEC) (hclosed : k.closed = s.sock.closed)
    (hinp : k.inp = if s.sock.hears then s.sock.inp.tail else s.sock.inp) :
    Allows env (RoundChange env s) s.disk.fs k pair.2 (.ofByte (answerAt env s)) := by
  have hdec : decisionAt env s = some (.ofByte (answerAt env s)) :=
    decisionAt_of_conflict ht (if_pos hask).symm
  refine ⟨fun h f c hc => ?_,fun h newname a q c hopen hname hr => ?_,
    fun h t a q c hr hfree => ?_⟩
  · obtain ⟨l,q,hl,rfl,hpre⟩ := hc
    exact .deletes hS (by simpa [hdec] using h) hl hpre
  · refine .renames hS (by rw [hdec,h]) ?_ hr
    cases hh : s.sock.hears with
    | true =>
      rw [hh,if_pos rfl] at hinp
      rw [newNameAt,if_pos hh,← hinp,hname]
    | false =>
      -- the byte was not the client's: then no name can be read either
      have hempty : s.sock.inp = [] := by
        rw [hclosed] at hopen
        simpa [Conn.hears,hopen] using hh
      rw [hh,hempty] at hinp
      simp [hinp,nextString] at hname
  · exact .renamesFree hS (by rw [hdec,h]) hr hfree

theorem copyRound_since (s : CopyState) :
    Leaves (GrownBy (RoundChange env s) s) (copyRound env) s := by
  cases hS : s.S with
  | nil =>
    unfold copyRound
    rw [Leaves,wp_bind,wp_get,hS]
    exact refl_of (GrownBy _) s
  | cons pair rest =>
    have hquiet := @checked_quiet env s.disk pair
    have hfs : (env.checked s.disk pair).fs = s.disk.fs := hquiet.fs_eq
    have hg : GrownBy (RoundChange env s) s (env.begins s pair rest) := hquiet.grown
    refine wp_copyRound_cases hS (fun _ => (efdAt_quiet pair.1 s.disk).grown) (fun _ _ _ h => h)
      (fun efd body _ hmaking hfree => ?_) (fun t hcfl hask info => ?_) fun t hcfl hkept => ?_
    · have hnone : decisionAt env s = none := by
        simp [decisionAt,conflictAt,hS,hfree]
      have hmake : ∀ u, GrownBy (Makes s.disk.fs) (env.begins s pair rest) u →
          GrownBy (RoundChange env s) s u := fun u hu =>
        trans_of (GrownBy _) hg (hu.mono fun f c hc => .of_makes hnone hc)
      have hbody : wp body (fun r u => GrownBy (Makes s.disk.fs) (env.begins s pair rest) u ∧
          ∀ t, r ≠ .conflict t) (fun _ u => GrownBy (Makes s.disk.fs) (env.begins s pair rest) u)
          (env.begins s pair rest) := by
        cases hmaking with
        | file => exact hfs ▸ wp_oscopyfile (s := env.begins s pair rest) (hfs ▸ hfree)
        | dir => exact hfs ▸ wp_makeDestDir (s := env.begins s pair rest) pair.1 pair.2
      refine wp_mono hbody (fun r u hu => ?_) fun _ u hu => hmake u hu
      obtain ⟨hu,hno⟩ := hu
      cases r with
      | OK_TYPE => exact .inl ⟨rfl,hmake u hu⟩
      | UNSOLVABLE_ERROR_TYPE =>
        exact .inr ⟨rfl,fun info => Leaves.since (hmake u hu) (moves_unsolvableError _ _ _)⟩
      | conflict t => exact absurd rfl (hno t)
    · rw [wp_bind]
      refine wp_waitConflictOrErrorDec (fun k _ hc hi => ?_) fun k _ => hg
      refine Leaves.since (R := GrownBy (RoundChange env s)) hg (leaves_handleConflict ?_)
      have hall := allows_answered hS hcfl hask hc hi
      rw [← hfs] at hall
      exact hall
    · have hall := allows_kept hS hcfl hkept
      rw [← hfs] at hall
      split
      · exact Leaves.since hg (moves_sendSkipInfo pair.1 _)
      · exact Leaves.since hg (leaves_handleConflict hall)

end RootHelper
