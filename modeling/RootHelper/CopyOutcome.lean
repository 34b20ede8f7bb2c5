import RootHelper.CopyRun
import RootHelper.FileTransfer

/-!
What a round that goes on leaves of the task's own state: the stack it goes on with, the decisions
it keeps, and what it has taken from the client.
-/

set_option autoImplicit false

namespace RootHelper
open Posix Control

/-- A connection later on: what the client sends may have been taken from its front, more may have
been written, and closed is closed. -/
structure Later (k k' : Conn) : Prop where
  inp : k'.inp <:+ k.inp
  out : k.out <+: k'.out
  closed : k.closed → k'.closed

instance : Std.Refl Later := ⟨fun _ => ⟨List.suffix_rfl,List.prefix_rfl,id⟩⟩

instance : IsTrans Conn Later :=
  ⟨fun _ _ _ h h' => ⟨h'.inp.trans h.inp,h.out.trans h'.out,h'.closed ∘ h.closed⟩⟩

/-- The stack and the kept decisions are as they were. -/
structure Aside (s t : CopyState) : Prop where
  stack : t.S = s.S
  kept : t.permanentDecs = s.permanentDecs
  sock : Later s.sock t.sock

instance : Std.Refl Aside := ⟨fun s => ⟨rfl,rfl,refl_of Later s.sock⟩⟩

instance : IsTrans CopyState Aside :=
  ⟨fun _ _ _ h h' => ⟨h'.stack.trans h.stack,h'.kept.trans h.kept,trans_of Later h.sock h'.sock⟩⟩

theorem Later.deaf {k k' : Conn} (h : Later k k') (hk : k.hears = false) : k'.hears = false := by
  cases hclosed : k.closed with
  | true => simp [Conn.hears,h.closed hclosed]
  | false =>
    have hempty : k.inp = [] := by simpa [Conn.hears,hclosed] using hk
    have hi := h.inp
    rw [hempty,List.suffix_nil] at hi
    simp [Conn.hears,hi]

variable {env : CopyEnv} {s : CopyState}

section Asides

variable {α : Type}

theorem aside_onDisk (x : DiskM α) : Moves Aside (onDisk x) := by
  intro s
  rw [Leaves,wp_onDisk]
  exact wp_trivial (fun _ _ => ⟨rfl,rfl,refl_of Later _⟩) fun _ _ => ⟨rfl,rfl,refl_of Later _⟩

theorem Told.later {k k' : Conn} (h : Told k k') : Later k k' := ⟨h.1 ▸ List.suffix_rfl,h.2.1,h.2.2⟩

theorem aside_send (c : Chunk) : Moves Aside (send c) := fun _ =>
  wp_send (fun _ h _ => ⟨rfl,rfl,h.later⟩) fun _ h => ⟨rfl,rfl,h.later⟩

theorem later_answer {k k' : Conn} {c : Chunk} (hout : k.out ++ [c] <+: k'.out) (hc : k'.closed = k.closed)
    (hi : k'.inp = if k.hears then k.inp.tail else k.inp) : Later k k' := by
  refine ⟨?_,(List.prefix_append _ _).trans hout,fun h => hc ▸ h⟩
  rw [hi]
  split
  · exact List.tail_suffix _
  · exact List.suffix_rfl

theorem aside_waitConflictOrErrorDec (srcI destI : Str) (isConflict : Bool) :
    Moves Aside (waitConflictOrErrorDec env srcI destI isConflict) := fun _ =>
  wp_waitConflictOrErrorDec (fun _ ho hc hi => ⟨rfl,rfl,later_answer ho hc hi⟩)
    fun _ h => ⟨rfl,rfl,h.later⟩

theorem aside_unsolvableError (srcI destI : Str) :
    Moves Aside (unsolvableError env srcI destI) :=
  (aside_waitConflictOrErrorDec srcI destI false).bind fun _ => (moves_throw _).ite (moves_pure _)

theorem aside_sendSkipInfo (srcI : Str) : Moves Aside (sendSkipInfo srcI) :=
  (aside_send _).bind fun _ => moves_get.bind fun _ => (aside_send _).bind fun _ => aside_send _

theorem aside_copyChunks (input : Path) (output : Path × Name) (n i o progress : Nat) :
    Moves Aside (copyChunks env input output n i o progress) := by
  induction n generalizing i o progress with
  | zero => exact moves_throw _
  | succ n ih =>
    refine (aside_onDisk _).bind fun r => (moves_pure _).ite ?_
    exact (aside_send _).bind fun _ => ih _ _ _

theorem aside_oscopyfile (source destination : Str) :
    Moves Aside (oscopyfile env source destination) := by
  refine (aside_onDisk _).bind fun r => ?_
  cases r with
  | error e => exact moves_pure _
  | ok input =>
    refine (aside_onDisk _).bind fun r => ?_
    cases r with
    | error e => exact moves_pure _
    | ok output =>
      have content : Moves Aside (copyContent env input output) := by
        refine moves_get.bind fun _ => (aside_send _).bind fun _ => ?_
        refine (aside_copyChunks _ _ _ _ _ _).bind fun _ => (aside_send _).bind fun _ => ?_
        exact moves_get.bind fun _ => (aside_onDisk _).bind fun _ => moves_pure _
      exact content.bind fun _ => moves_pure _

end Asides

/-- The client was told of an error on the way from `s` to `t`. -/
def Reported (s t : CopyState) : Prop := ∃ cs, t.sock.out = s.sock.out ++ cs ∧ .u64 ERR_ind ∈ cs

theorem Reported.of_later {s t u : CopyState} (h : Reported t u) (hst : s.sock.out <+: t.sock.out) :
    Reported s u := by
  obtain ⟨cs,hcs,hmem⟩ := h
  obtain ⟨ds,hds⟩ := hst
  exact ⟨ds ++ cs,by rw [hcs,← hds,List.append_assoc],by simp [hmem]⟩

theorem unsolvableError_reports (srcI destI : Str) :
    wp (unsolvableError env srcI destI) (fun _ t => Reported s t ∧ Aside s t) (fun _ _ => True) s := by
  unfold unsolvableError
  rw [wp_bind]
  refine wp_waitConflictOrErrorDec (fun k ho hc hi => ?_) fun _ _ => trivial
  obtain ⟨cs,hcs⟩ := ho
  rw [wp_ite]
  refine ⟨fun _ => trivial,fun _ => ⟨⟨.u64 ERR_ind :: cs,?_,by simp⟩,rfl,rfl,?_⟩⟩
  · rw [← hcs]
    simp
  · exact later_answer ⟨cs,hcs⟩ hc hi

/-! ### The next stack -/

def childrenPairs (srcI destI : Str) (entries : List (Str × Name)) : List Pair :=
  entries.map fun e => (pathConcat srcI e.2,pathConcat destI e.2)

/-- The answers the dispatch does nothing for. -/
def Decision.ignored : Decision → Bool
  | CD_MERGE_RECURSIVE | NO_PREV_DEC | unknown _ => true
  | _ => false

/-- Why a pair is put back: it is to be met again with its destination deleted or free, or the
client has given a name. -/
def Again (env : CopyEnv) (dec : Decision) (destI dest : Str) (s t : CopyState) : Prop :=
  (dec = .CD_OVERWRITE ∨ dec = .CD_OVERWRITE_ALL) ∧ dest = destI ∨
    (dec = .CD_REN_SRC_ALL ∨ dec = .CD_REN_DEST_ALL) ∧
      efdAt env.toKernel t.disk.fs dest = .none ∨
    (dec = .CD_REN_SRC ∨ dec = .CD_REN_DEST) ∧ t.sock.inp.length < s.sock.inp.length

def Conn.nextName (k : Conn) : Option Str := if k.closed then none else nextString k.inp

/-- A decision for all that cannot be carried out on the disk `d`. -/
inductive Denied (env : CopyEnv) (d : Disk) (destI : Str) : Decision → Prop
  | delete {dec : Decision} {r : Int} {d' : Disk} : dec = .CD_OVERWRITE ∨ dec = .CD_OVERWRITE_ALL →
      genericDeleteBasicImpl env.toSystem destI d = .ok r d' → r < 0 → Denied env d destI dec
  | rename {dest : Str} {d₁ d₂ : Disk} {e : Errno} : nonExistingDest env destI d = .ok dest d₁ →
      (env.rename destI dest : DiskM _) d₁ = .ok (.error e) d₂ → Denied env d destI .CD_REN_DEST_ALL

/-- Any decision that cannot be carried out; `newname` is the one the client gives for it. -/
inductive Undone (env : CopyEnv) (dec : Decision) (destI : Str) (newname : Option Str)
    (d : Disk) : Prop
  | denied : Denied env d destI dec → Undone env dec destI newname d
  | rename {name : Str} {e : Errno} {d' : Disk} : dec = .CD_REN_DEST → newname = some name →
      (env.rename destI (renamedPath destI name) : DiskM _) d = .ok (.error e) d' →
      Undone env dec destI newname d

/-- What carrying out `dec` for a pair makes of the stack. -/
inductive Carried (env : CopyEnv) (dec : Decision) (srcI destI : Str) (s t : CopyState) : Prop
  | skipped : (dec = .CD_SKIP ∨ dec = .CD_SKIP_ALL) → t.S = s.S → Carried env dec srcI destI s t
  | reported : Undone env dec destI s.sock.nextName s.disk → Reported s t → t.S = s.S →
      Carried env dec srcI destI s t
  | ignored : dec.ignored → t.S = s.S → Carried env dec srcI destI s t
  | unlisted : (dec = .CD_MERGE ∨ dec = .CD_MERGE_ALL) → ¬ Listable env.toSystem s.disk srcI →
      t.S = s.S → Carried env dec srcI destI s t
  | children (entries : List (Str × Name)) : (dec = .CD_MERGE ∨ dec = .CD_MERGE_ALL) →
      t.disk.fs = s.disk.fs → Lists env.toKernel t.disk.fs srcI entries →
      t.S = (childrenPairs srcI destI entries).reverse ++ s.S → Carried env dec srcI destI s t
  | again (dest : Str) : Again env dec destI dest s t → t.S = (srcI,dest) :: s.S →
      Carried env dec srcI destI s t

theorem wp_pushChildrenPairs (srcI destI : Str) :
    wp (pushChildrenPairs env srcI destI)
      (fun _ t => t.disk.fs = s.disk.fs ∧ t.permanentDecs = s.permanentDecs ∧ t.sock = s.sock ∧
        (¬ Listable env.toSystem s.disk srcI ∧ t.S = s.S ∨
          Listable env.toSystem s.disk srcI ∧ ∃ entries,
            Lists env.toKernel s.disk.fs srcI entries ∧
              t.S = (childrenPairs srcI destI entries).reverse ++ s.S))
      (fun _ _ => True) s := by
  simp only [pushChildrenPairs,listChildrenPairs,wp_bind]
  rw [wp_onDisk]
  refine wp_listPlain _ (fun d h hno => ?_) fun entries d h hlistable hlist => ?_
  · exact ⟨h.fs_eq,rfl,rfl,.inl ⟨hno,rfl⟩⟩
  · exact ⟨h.fs_eq,rfl,rfl,.inr ⟨hlistable,entries,hlist,rfl⟩⟩

theorem efdAt_renamed_away {k : Kernel} {fs : FileSystem} {s : Str} {a q : Path} {c : Name}
    (h : k.glance fs s = .ok a) (hcan : fs.CanMove a q c) (hfree : ¬ fs.has (q ++ [c])) :
    efdAt k ((Change.move a q c).apply fs) s = .none := by
  have hnode := Change.node_move hcan
  have hagree : ∀ p n n', fs.node p = some n →
      ((Change.move a q c).apply fs).node p = some n' → n = n' := by
    intro p n n' hn hn'
    have haway : ¬ q ++ [c] <+: p := fun hpre =>
      FileSystem.not_has_below hfree hpre (FileSystem.has_iff.mpr ⟨n,hn⟩)
    rw [hnode,FileSystem.movedNode_away haway] at hn'
    split_ifs at hn'
    rw [hn] at hn'
    exact Option.some.inj hn'
  unfold efdAt Kernel.nodeAt
  cases hg : k.glance ((Change.move a q c).apply fs) s with
  | error e => rfl
  | ok a' =>
    obtain rfl := Kernel.glance_agree hagree h hg
    have haway : ¬ q ++ [c] <+: a := fun hpre =>
      FileSystem.not_has_below hfree hpre hcan.2.1
    have hgone : ((Change.move a q c).apply fs).node a = none := by
      rw [hnode,FileSystem.movedNode_away haway,if_pos List.prefix_rfl]
    simp [bind,Except.bind,hgone]

/-- Carrying out `dec` for a conflict of kind `t`, seen from the task's own state. A decision is
kept only when it is for all, and then it may be the one that was kept before. -/
structure Followed (env : CopyEnv) (dec : Decision) (t : CflType) (srcI destI : Str)
    (s u : CopyState) : Prop where
  carried : Carried env dec srcI destI s u
  sock : Later s.sock u.sock
  kept : (dec.isForAll → (s.permanentDecs t).val = dec) → u.permanentDecs = s.permanentDecs
  named : dec = .CD_REN_DEST → u.sock.inp.length < s.sock.inp.length

theorem recordDecision_kept {dec : Decision} {t : CflType} :
    wp (recordDecision dec t) (fun _ u => ∃ decs, u = { s with permanentDecs := decs } ∧
        ((dec.isForAll → (s.permanentDecs t).val = dec) → decs = s.permanentDecs))
      (fun _ _ => True) s := by
  unfold recordDecision
  split
  · rename_i hall
    refine ⟨_,rfl,fun h => ?_⟩
    have hsame : (⟨dec,.inr hall⟩ : KeptDecision) = s.permanentDecs t := Subtype.ext (h hall).symm
    rw [hsame,Function.update_eq_self]
  · exact ⟨_,rfl,fun _ => rfl⟩

section Acts

variable {srcI destI dest : Str} {dec : Decision} {u : CopyState}

/-- What one decision does once it is kept. -/
structure Acted (env : CopyEnv) (dec : Decision) (srcI destI : Str) (s u : CopyState) : Prop where
  carried : Carried env dec srcI destI s u
  sock : Later s.sock u.sock
  kept : u.permanentDecs = s.permanentDecs
  named : dec = .CD_REN_DEST → u.sock.inp.length < s.sock.inp.length

theorem acted_reports (hundone : Undone env dec destI s.sock.nextName s.disk)
    (hk : Later s.sock u.sock) (hS : u.S = s.S) (hp : u.permanentDecs = s.permanentDecs)
    (hnamed : dec = .CD_REN_DEST → u.sock.inp.length < s.sock.inp.length) :
    wp (unsolvableError env srcI dest) (fun _ v => Acted env dec srcI destI s v)
      (fun _ _ => True) u := by
  refine wp_mono (unsolvableError_reports srcI dest) (fun _ v hv => ?_) fun _ _ _ => trivial
  obtain ⟨hrep,hv⟩ := hv
  refine ⟨.reported hundone (hrep.of_later hk.out) (hv.stack.trans hS),trans_of Later hk hv.sock,
    hv.kept.trans hp,fun h => ?_⟩
  exact Nat.lt_of_le_of_lt hv.sock.inp.length_le (hnamed h)

theorem acted_delete (hdec : dec = .CD_OVERWRITE ∨ dec = .CD_OVERWRITE_ALL) :
    wp (do
      if (← onDisk (genericDeleteBasicImpl env.toSystem destI)) < 0 then
        unsolvableError env srcI destI
      else push [(srcI,destI)]) (fun _ u => Acted env dec srcI destI s u) (fun _ _ => True) s := by
  have hnot : dec = .CD_REN_DEST → False := by
    rcases hdec with rfl | rfl <;> simp
  rw [wp_bind,wp_onDisk]
  refine wp_result (wp_trivial (fun r d hr => ?_) fun _ _ _ => trivial)
  rw [wp_ite]
  refine ⟨fun hless => ?_,fun _ => ?_⟩
  · exact acted_reports (.denied (.delete hdec hr hless)) (refl_of Later _) rfl rfl fun h => (hnot h).elim
  · exact ⟨.again destI (.inl ⟨hdec,rfl⟩) rfl,refl_of Later _,rfl,fun h => (hnot h).elim⟩

theorem acted_merge (hdec : dec = .CD_MERGE ∨ dec = .CD_MERGE_ALL) :
    wp (pushChildrenPairs env srcI destI) (fun _ u => Acted env dec srcI destI s u)
      (fun _ _ => True) s := by
  have hnot : dec = .CD_REN_DEST → False := by
    rcases hdec with rfl | rfl <;> simp
  refine wp_mono (wp_pushChildrenPairs srcI destI) (fun _ u hu => ?_) fun _ _ _ => trivial
  obtain ⟨hfs,hkept,hsock,hS⟩ := hu
  refine ⟨?_,hsock ▸ refl_of Later _,hkept,fun h => (hnot h).elim⟩
  rcases hS with ⟨hno,hS⟩ | ⟨_,entries,hlist,hS⟩
  · exact .unlisted hdec hno hS
  · exact .children entries hdec hfs (hfs ▸ hlist) hS

theorem acted_skip (hdec : dec = .CD_SKIP ∨ dec = .CD_SKIP_ALL) :
    wp (sendSkipInfo srcI) (fun _ u => Acted env dec srcI destI s u) (fun _ _ => True) s := by
  refine wp_mono (aside_sendSkipInfo srcI s) (fun _ u hu => ?_) fun _ _ _ => trivial
  refine ⟨.skipped hdec hu.stack,hu.sock,hu.kept,fun h => ?_⟩
  rcases hdec with rfl | rfl <;> simp at h

theorem acted_autoRenameDest : wp (autoRenameDest env srcI destI)
    (fun _ u => Acted env .CD_REN_DEST_ALL srcI destI s u) (fun _ _ => True) s := by
  rw [autoRenameDest,wp_bind,wp_onDisk]
  refine wp_result (wp_nonExistingDest (fun dest d hd hfree hfound => ?_) fun _ _ _ => trivial)
  rw [wp_bind,wp_onDisk]
  refine wp_result ?_
  refine System.wp_perform (fun e hren => ?_) fun u ch hk _ => ?_
  · exact acted_reports (.denied (.rename hfound hren)) (refl_of Later _) rfl rfl fun h => by simp at h
  · refine ⟨.again destI (.inr (.inl ⟨.inr rfl,?_⟩)) rfl,refl_of Later _,rfl,fun h => by simp at h⟩
    have hfs : d.fs = s.disk.fs := hd.fs_eq
    simp only at hk hfree
    rw [hfs] at hk
    obtain ⟨a,q,c,rfl,hr,hnone⟩ := Kernel.renameEffect_free hk (not_has_of_efdAt hfree)
    change efdAt env.toKernel ((Change.move a q c).apply d.fs) destI = .none
    rw [hfs]
    exact efdAt_renamed_away hr.from_ hr.can hnone

theorem acted_autoRenameSrc : wp (autoRenameSrc env srcI destI)
    (fun _ u => Acted env .CD_REN_SRC_ALL srcI destI s u) (fun _ _ => True) s := by
  rw [autoRenameSrc,wp_bind,wp_onDisk]
  refine wp_nonExistingDest (fun dest d hd hfree => ?_) fun _ _ => trivial
  refine ⟨.again dest (.inr (.inl ⟨.inl rfl,?_⟩)) rfl,refl_of Later _,rfl,fun h => by simp at h⟩
  change efdAt env.toKernel d.fs dest = .none
  rw [hd.fs_eq]
  exact hfree

theorem wp_readName {Q : Str → CopyState → Prop}
    (h : ∀ newname, s.sock.nextName = some newname →
      ∀ k, Later s.sock k → k.inp.length < s.sock.inp.length → Q newname { s with sock := k }) :
    wp (onSock readStringWithLen) Q (fun _ _ => True) s := by
  rw [wp_onSock]
  refine wp_readStringWithLen (fun newname hopen hname => ?_) fun _ _ => trivial
  have hlen : 2 ≤ s.sock.inp.length := (nextString_length hname).1
  refine h newname (by simp [Conn.nextName,hopen,hname]) _
    ⟨List.drop_suffix _ _,List.prefix_rfl,id⟩ ?_
  rw [List.length_drop]
  omega

theorem acted_rename : wp (do
      let newname ← onSock readStringWithLen
      match ← onDisk (env.rename destI (renamedPath destI newname)) with
      | .error _ => unsolvableError env srcI destI
      | .ok _ => push [(srcI,destI)])
    (fun _ u => Acted env .CD_REN_DEST srcI destI s u) (fun _ _ => True) s := by
  rw [wp_bind]
  refine wp_readName fun newname hname k hread hless => ?_
  rw [wp_bind,wp_onDisk]
  refine wp_result (wp_trivial (fun r d hr => ?_) fun _ _ _ => trivial)
  cases r with
  | ok _ => exact ⟨.again destI (.inr (.inr ⟨.inr rfl,hless⟩)) rfl,hread,rfl,fun _ => hless⟩
  | error e => exact acted_reports (.rename rfl hname hr) hread rfl rfl fun _ => hless

theorem acted_renameSrc : wp (do
      let newname ← onSock readStringWithLen
      pushSrcWithDifferentName srcI destI newname)
    (fun _ u => Acted env .CD_REN_SRC srcI destI s u) (fun _ _ => True) s := by
  rw [wp_bind]
  refine wp_readName fun newname _ k hread hless => ?_
  exact ⟨.again (renamedPath destI newname) (.inr (.inr ⟨.inl rfl,hless⟩)) rfl,hread,rfl,
    fun h => by simp at h⟩

theorem acted_ignored (hdec : dec.ignored) : Acted env dec srcI destI s s := by
  refine ⟨.ignored hdec rfl,refl_of Later _,rfl,fun h => ?_⟩
  simp [h,Decision.ignored] at hdec

end Acts

theorem wp_handleConflict_followed {srcI destI : Str} {dec : Decision} {t : CflType} :
    wp (handleConflict env srcI destI dec t)
      (fun _ u => Followed env dec t srcI destI s u) (fun _ _ => True) s := by
  unfold handleConflict
  rw [wp_bind]
  refine wp_mono recordDecision_kept (fun _ v hv => ?_) fun _ _ _ => trivial
  obtain ⟨decs,rfl,hdecs⟩ := hv
  -- the decisions are of no use to what follows, so it is as if it had begun in `s`
  have followed : ∀ u, Acted env dec srcI destI { s with permanentDecs := decs } u →
      Followed env dec t srcI destI s u := by
    intro u hu
    refine ⟨?_,hu.sock,fun h => hu.kept.trans (hdecs h),hu.named⟩
    cases hu.carried with
    | skipped hdec hS => exact .skipped hdec hS
    | reported hundone hrep hS => exact .reported hundone hrep hS
    | ignored hign hS => exact .ignored hign hS
    | unlisted hdec hno hS => exact .unlisted hdec hno hS
    | children entries hdec hfs hlist hS => exact .children entries hdec hfs hlist hS
    | again dest hagain hS => exact .again dest hagain hS
  have finish : ∀ {x : CopyM Unit}, wp x
      (fun _ u => Acted env dec srcI destI { s with permanentDecs := decs } u) (fun _ _ => True)
      { s with permanentDecs := decs } →
      wp x (fun _ u => Followed env dec t srcI destI s u) (fun _ _ => True)
        { s with permanentDecs := decs } :=
    fun h => wp_mono h (fun _ u hu => followed u hu) fun _ _ _ => trivial
  cases dec with
  | CD_SKIP => exact finish (acted_skip (.inl rfl))
  | CD_SKIP_ALL => exact finish (acted_skip (.inr rfl))
  | CD_OVERWRITE => exact finish (acted_delete (.inl rfl))
  | CD_OVERWRITE_ALL => exact finish (acted_delete (.inr rfl))
  | CD_MERGE => exact finish (acted_merge (.inl rfl))
  | CD_MERGE_ALL => exact finish (acted_merge (.inr rfl))
  | CD_REN_DEST_ALL => exact finish acted_autoRenameDest
  | CD_REN_SRC_ALL => exact finish acted_autoRenameSrc
  | CD_REN_DEST => exact finish acted_rename
  | CD_REN_SRC => exact finish acted_renameSrc
  | CD_CANCEL => trivial
  | CD_MERGE_RECURSIVE => exact followed _ (acted_ignored rfl)
  | NO_PREV_DEC => exact followed _ (acted_ignored rfl)
  | unknown code => exact followed _ (acted_ignored rfl)

/-! ### A round -/

/-- The disk on which a round lists the source: for a merge, or once its directory was made. -/
def Listing (env : CopyEnv) (s : CopyState) (pair : Pair) (d : Disk) : Prop :=
  (decisionAt env s = some .CD_MERGE ∨ decisionAt env s = some .CD_MERGE_ALL) ∧
      d = env.checked s.disk pair ∨
    decisionAt env s = none ∧ efdAt env.toKernel s.disk.fs pair.1 = .dir ∧ ∃ r, 0 ≤ r ∧
      mkpath env.toSystem pair.2 defaultMode true (env.checked s.disk pair) = .ok r d

/-- What a round asks of the system for the pair on top is refused, and the client told. -/
inductive CallRefused (env : CopyEnv) (s : CopyState) (pair : Pair) : Prop
  | file : decisionAt env s = none → efdAt env.toKernel s.disk.fs pair.1 = .file →
      env.opens (env.checked s.disk pair) pair.1 pair.2 = none → CallRefused env s pair
  | dir {r : Int} {d : Disk} : decisionAt env s = none →
      efdAt env.toKernel s.disk.fs pair.1 = .dir →
      mkpath env.toSystem pair.2 defaultMode true (env.checked s.disk pair) = .ok r d → r < 0 →
      CallRefused env s pair
  | decided {dec : Decision} : decisionAt env s = some dec →
      Undone env dec pair.2 (newNameAt s) (env.checked s.disk pair) → CallRefused env s pair

/-- What becomes of the pair on top, and the stack the round goes on with. -/
inductive Next (env : CopyEnv) (s t : CopyState) (pair : Pair) (rest : List Pair) : Prop
  | copied (v : CopyState) : decisionAt env s = none → efdAt env.toKernel s.disk.fs pair.1 = .file →
      oscopyfile env pair.1 pair.2 (env.begins s pair rest) = .ok .OK_TYPE v →
      t.disk = v.disk → t.sock = v.sock → t.S = rest → Next env s t pair rest
  | reported : CallRefused env s pair → Reported s t → t.S = rest → Next env s t pair rest
  | skipped : (decisionAt env s = some .CD_SKIP ∨ decisionAt env s = some .CD_SKIP_ALL) →
      t.S = rest → Next env s t pair rest
  | ignored (dec : Decision) : decisionAt env s = some dec → dec.ignored → t.S = rest →
      Next env s t pair rest
  | unlisted (d : Disk) : Listing env s pair d → ¬ Listable env.toSystem d pair.1 → t.S = rest →
      Next env s t pair rest
  | children (d : Disk) (entries : List (Str × Name)) : Listing env s pair d →
      t.disk.fs = d.fs → s.disk.fs.Le t.disk.fs → Lists env.toKernel t.disk.fs pair.1 entries →
      t.S = (childrenPairs pair.1 pair.2 entries).reverse ++ rest → Next env s t pair rest
  | again (dest : Str) (dec : Decision) : decisionAt env s = some dec →
      Again env dec pair.2 dest s t → t.S = (pair.1,dest) :: rest → Next env s t pair rest

/-- The round asks, and the answer is one that is kept. -/
def KeepsAnswer (env : CopyEnv) (s : CopyState) : Prop :=
  ∃ c, conflictAt env s = some c ∧ (s.permanentDecs c.2).val = .NO_PREV_DEC ∧
    (Decision.ofByte (answerAt env s)).isForAll

/-- What a round begun in `s` that goes on leaves in `t`. -/
structure Outcome (env : CopyEnv) (s t : CopyState) : Prop where
  next : ∃ pair rest, s.S = pair :: rest ∧ efdAt env.toKernel s.disk.fs pair.1 ≠ .none ∧
    Next env s t pair rest
  sock : Later s.sock t.sock
  kept : ¬ KeepsAnswer env s → t.permanentDecs = s.permanentDecs
  named : decisionAt env s = some .CD_REN_DEST → t.sock.inp.length < s.sock.inp.length

theorem le_of_grown_makes {d d' : Disk} (h : Grown (Changes (Makes d.fs)) d d') :
    d.fs.Le d'.fs := by
  obtain ⟨es,_,hist⟩ := h
  refine @History.invariant _ _ _ _ (fun f => d.fs.Le f) hist (FileSystem.Le.refl _) ?_
  intro f e hle he r n hr
  have hsame : (e.apply f).node r = f.node r := by
    refine Event.node_apply fun ht => ?_
    obtain ⟨c,hc,ht⟩ := ht
    obtain ⟨p,m,nd,rfl,hfree⟩ := he c hc
    obtain rfl : r = p ++ [m] := ht
    exact hfree (FileSystem.has_iff.mpr ⟨n,hr⟩)
  rw [hsame]
  exact hle r n hr

section Pair

variable {pair : Pair} {rest : List Pair} {t : CflType} {u v : CopyState}

theorem Outcome.noted (h : Outcome env s u) (hd : v.disk = u.disk) (hk : v.sock = u.sock)
    (hS : v.S = u.S) (hp : v.permanentDecs = u.permanentDecs) : Outcome env s v := by
  obtain ⟨⟨pair,rest,hs,hthere,hnext⟩,hsock,hkept,hnamed⟩ := h
  refine ⟨⟨pair,rest,hs,hthere,?_⟩,hk ▸ hsock,fun hno => hp.trans (hkept hno),fun h => hk ▸ hnamed h⟩
  cases hnext with
  | copied w hdec hefd hcopy hwd hwk h =>
    exact .copied w hdec hefd hcopy (hd.trans hwd) (hk.trans hwk) (hS.trans h)
  | reported href hrep h =>
    refine .reported href ?_ (hS.trans h)
    simpa only [Reported,hk] using hrep
  | skipped hdec h => exact .skipped hdec (hS.trans h)
  | ignored dec hdec hign h => exact .ignored dec hdec hign (hS.trans h)
  | unlisted d hlist hno h => exact .unlisted d hlist hno (hS.trans h)
  | children d entries hlisting hfs hle hlist h =>
    rw [← hd] at hfs hle hlist
    exact .children d entries hlisting hfs hle hlist (hS.trans h)
  | again dest dec hdec hagain h =>
    refine .again dest dec hdec ?_ (hS.trans h)
    simpa only [Again,hd,hk] using hagain

/-- Carrying out the decision a round finds or is given, from a state `u` that differs from the
round's first in what it popped, noted and read only. -/
theorem Followed.outcome {dec : Decision} (h : Followed env dec t pair.1 pair.2 u v)
    (hS : s.S = pair :: rest) (hthere : efdAt env.toKernel s.disk.fs pair.1 ≠ .none)
    (hdec : decisionAt env s = some dec) (hdisk : u.disk = env.checked s.disk pair)
    (hrest : u.S = rest)
    (hsock : Later s.sock u.sock) (hkept : u.permanentDecs = s.permanentDecs)
    (hname : dec = .CD_REN_DEST → u.sock.nextName = newNameAt s)
    (hall : ¬ KeepsAnswer env s → dec.isForAll → (s.permanentDecs t).val = dec) :
    Outcome env s v := by
  have hless : v.sock.inp.length < u.sock.inp.length → v.sock.inp.length < s.sock.inp.length :=
    fun hl => Nat.lt_of_lt_of_le hl hsock.inp.length_le
  refine ⟨⟨pair,rest,hS,hthere,?_⟩,trans_of Later hsock h.sock,fun hno => ?_,
    fun hren => ?_⟩
  · cases h.carried with
    | skipped hskip hv =>
      refine .skipped ?_ (hv.trans hrest)
      rcases hskip with rfl | rfl
      · exact .inl hdec
      · exact .inr hdec
    | reported hundone hrep hv =>
      refine .reported (.decided hdec ?_) (hrep.of_later hsock.out) (hv.trans hrest)
      rw [hdisk] at hundone
      cases hundone with
      | denied hdenied => exact .denied hdenied
      | rename hren hnext hres => exact .rename hren ((hname hren).symm.trans hnext) hres
    | ignored hign hv => exact .ignored dec hdec hign (hv.trans hrest)
    | unlisted hmerge hno hv =>
      refine .unlisted u.disk (.inl ⟨?_,hdisk⟩) hno (hv.trans hrest)
      rcases hmerge with rfl | rfl
      · exact .inl hdec
      · exact .inr hdec
    | children entries hmerge hv hlist hvS =>
      rw [hrest] at hvS
      refine .children u.disk entries (.inl ⟨?_,hdisk⟩) hv ?_ hlist hvS
      · rcases hmerge with rfl | rfl
        · exact .inl hdec
        · exact .inr hdec
      · rw [hv,hdisk,(checked_quiet s.disk pair).fs_eq]
        exact FileSystem.Le.refl _
    | again dest hagain hvS =>
      rw [hrest] at hvS
      refine .again dest dec hdec ?_ hvS
      rcases hagain with hdel | hfree | ⟨hname,hl⟩
      · exact .inl hdel
      · exact .inr (.inl hfree)
      · exact .inr (.inr ⟨hname,hless hl⟩)
  · rw [h.kept (by rw [hkept]; exact hall hno),hkept]
  · exact hless (h.named (Option.some.inj (hdec.symm.trans hren)))

theorem wp_oscopyfile_outcome (hS : s.S = pair :: rest)
    (hefd : efdAt env.toKernel s.disk.fs pair.1 = .file)
    (hfree : efdAt env.toKernel s.disk.fs pair.2 = .none) (hdec : decisionAt env s = none) :
    wp (oscopyfile env pair.1 pair.2)
      (fun r v => r = .OK_TYPE ∧ Outcome env s v ∨
        r = .UNSOLVABLE_ERROR_TYPE ∧ CallRefused env s pair ∧ Aside (env.begins s pair rest) v)
      (fun _ _ => True) (env.begins s pair rest) := by
  have hfs : (env.begins s pair rest).disk.fs = s.disk.fs := (checked_quiet s.disk pair).fs_eq
  have hkind : wp (oscopyfile env pair.1 pair.2)
      (fun r _ => r = .OK_TYPE ∨ r = .UNSOLVABLE_ERROR_TYPE ∧ CallRefused env s pair)
      (fun _ _ => True) (env.begins s pair rest) :=
    wp_oscopyfile_eq (hfs ▸ hfree) (fun d hopens _ => .inr ⟨rfl,.file hdec hefd hopens⟩)
      (fun _ _ _ _ _ _ _ _ _ _ _ _ _ _ _ => .inl rfl) fun _ _ _ _ _ _ _ _ _ _ => trivial
  refine wp_result (wp_mono (wp_and hkind (aside_oscopyfile pair.1 pair.2 _)) (fun r v h hres => ?_)
    fun _ _ _ _ => trivial)
  obtain ⟨rfl | ⟨rfl,href⟩,hv⟩ := h
  · refine .inl ⟨rfl,⟨pair,rest,hS,by simp [hefd],.copied v hdec hefd hres rfl rfl hv.stack⟩,
      hv.sock,fun _ => hv.kept,fun h => by simp [hdec] at h⟩
  · exact .inr ⟨rfl,href,hv⟩

theorem wp_makeDestDir_outcome (hS : s.S = pair :: rest)
    (hefd : efdAt env.toKernel s.disk.fs pair.1 = .dir) (hdec : decisionAt env s = none) :
    wp (makeDestDir env pair.1 pair.2)
      (fun r v => r = .OK_TYPE ∧ Outcome env s v ∨
        r = .UNSOLVABLE_ERROR_TYPE ∧ CallRefused env s pair ∧ Aside (env.begins s pair rest) v)
      (fun _ _ => True) (env.begins s pair rest) := by
  unfold makeDestDir
  rw [wp_bind,wp_onDisk]
  refine wp_result (wp_mono (moves_mkpath _ _ _ _ _) (fun r d hd hres => ?_) fun _ _ _ _ => trivial)
  have hle : s.disk.fs.Le d.fs := by
    have hgrown := le_of_grown_makes (grown_makes_of_makesDir hd)
    change (env.checked s.disk pair).fs.Le d.fs at hgrown
    rwa [(checked_quiet s.disk pair).fs_eq] at hgrown
  rw [wp_ite]
  refine ⟨fun hless => .inr ⟨rfl,.dir hdec hefd hres hless,rfl,rfl,refl_of Later _⟩,fun hok => ?_⟩
  rw [wp_bind]
  refine wp_mono (wp_pushChildrenPairs pair.1 pair.2) (fun _ v hv => ?_) fun _ _ _ => trivial
  obtain ⟨hfs,hkept,hsock,hstack⟩ := hv
  refine .inl ⟨rfl,⟨pair,rest,hS,by simp [hefd],?_⟩,hsock ▸ refl_of Later _,fun _ => hkept,
    fun h => by simp [hdec] at h⟩
  have hlisting : Listing env s pair d := .inr ⟨hdec,hefd,r,by omega,hres⟩
  rcases hstack with ⟨hno,hstack⟩ | ⟨_,entries,hlist,hstack⟩
  · exact .unlisted d hlisting hno hstack
  · exact .children d entries hlisting hfs (hfs ▸ hle) (hfs ▸ hlist) hstack

end Pair

theorem nextName_answered {k : Conn} (hc : k.closed = s.sock.closed)
    (hi : k.inp = if s.sock.hears then s.sock.inp.tail else s.sock.inp) :
    k.nextName = newNameAt s := by
  rw [Conn.nextName,newNameAt,hc,hi]
  cases hclosed : s.sock.closed with
  | true => simp [Conn.hears,hclosed]
  | false =>
    cases hinp : s.sock.inp with
    | nil => simp [Conn.hears,hclosed,hinp,nextString]
    | cons b rest => simp [Conn.hears,hclosed,hinp]

theorem copyRound_outcome (s : CopyState) :
    wp (copyRound env) (fun r t => r = none → Outcome env s t) (fun _ _ => True) s := by
  cases hS : s.S with
  | nil =>
    unfold copyRound
    rw [wp_bind,wp_get,hS]
    exact fun h => by simp at h
  | cons pair rest =>
    have hthere : ∀ {c : CflType}, conflictAt env s = some (pair,c) →
        efdAt env.toKernel s.disk.fs pair.1 ≠ .none := fun hcfl hnone => by
      simp [conflictAt,hS,hnone] at hcfl
    refine wp_copyRound_cases hS (fun _ h => by simp at h)
      (fun u info progress hu h => (hu h).noted rfl rfl rfl rfl)
      (fun efd body he hmaking hfree => ?_) (fun t hcfl hask info => ?_) fun t hcfl hkept => ?_
    · have hnone : decisionAt env s = none := by simp [decisionAt,conflictAt,hS,hfree]
      have hbody : efdAt env.toKernel s.disk.fs pair.1 ≠ .none ∧ wp body
          (fun r v => r = .OK_TYPE ∧ Outcome env s v ∨
            r = .UNSOLVABLE_ERROR_TYPE ∧ CallRefused env s pair ∧ Aside (env.begins s pair rest) v)
          (fun _ _ => True) (env.begins s pair rest) := by
        cases hmaking with
        | file => exact ⟨by simp [he],wp_oscopyfile_outcome hS he hfree hnone⟩
        | dir => exact ⟨by simp [he],wp_makeDestDir_outcome hS he hnone⟩
      obtain ⟨hthere,hbody⟩ := hbody
      refine wp_mono hbody (fun r u hu => ?_) fun _ _ _ => trivial
      rcases hu with ⟨rfl,hu⟩ | ⟨rfl,href,hu⟩
      · exact .inl ⟨rfl,fun _ => hu⟩
      · refine .inr ⟨rfl,fun info => ?_⟩
        refine wp_mono (unsolvableError_reports pair.1 pair.2) (fun _ v hv _ => ?_) fun _ _ _ => trivial
        obtain ⟨hrep,hv⟩ := hv
        have hv : Aside (env.begins s pair rest) v :=
          trans_of Aside hu ⟨hv.stack,hv.kept,hv.sock⟩
        exact ⟨⟨pair,rest,hS,hthere,.reported href (hrep.of_later hu.sock.out) hv.stack⟩,
          hv.sock,
          fun _ => hv.kept,fun h => by simp [hnone] at h⟩
    · have hdec := decisionAt_of_conflict hcfl (if_pos hask).symm
      rw [wp_bind]
      refine wp_waitConflictOrErrorDec (fun k ho hc hi => ?_) fun _ _ => trivial
      refine wp_mono wp_handleConflict_followed (fun _ v hv _ => ?_) fun _ _ _ => trivial
      exact hv.outcome hS (hthere hcfl) hdec rfl rfl (later_answer ho hc hi) rfl
        (fun _ => nextName_answered hc hi) fun hno hall => absurd ⟨_,hcfl,hask,hall⟩ hno
    · have hdec := decisionAt_of_conflict hcfl (if_neg hkept).symm
      rw [wp_ite]
      refine ⟨fun hskip => ?_,fun _ => ?_⟩
      · refine wp_mono (aside_sendSkipInfo pair.1 _) (fun _ u hu _ => ?_) fun _ _ _ => trivial
        have hdec : decisionAt env s = some .CD_SKIP_ALL := hdec.trans (congrArg some hskip)
        exact ⟨⟨pair,rest,hS,hthere hcfl,.skipped (.inr hdec) hu.stack⟩,hu.sock,
          fun _ => hu.kept,fun h => by simp [hdec] at h⟩
      · refine wp_mono wp_handleConflict_followed (fun _ u hu _ => ?_) fun _ _ _ => trivial
        refine hu.outcome hS (hthere hcfl) hdec rfl rfl (refl_of Later _) rfl (fun hren => ?_)
          fun _ _ => rfl
        rcases (s.permanentDecs t).property with h | h
        · exact absurd h hkept
        · rw [hren] at h
          cases h

theorem Outcome.of_round {t : CopyState} (h : copyRound env s = .ok none t) : Outcome env s t := by
  have hround := @copyRound_outcome env s
  unfold wp at hround
  rw [h] at hround
  exact hround rfl

theorem stack_of_finished {t : CopyState} (h : copyRound env s = .ok (some .finished) t) :
    s.S = [] := by
  cases hS : s.S with
  | nil => rfl
  | cons pair rest =>
    have hgone : wp (copyRound env) (fun r _ => r ≠ some .finished) (fun _ _ => True) s := by
      unfold copyRound
      simp only [wp_bind,wp_get,hS,wp_set]
      refine wp_trivial (fun efd u => ?_) fun _ _ => trivial
      cases efd with
      | none => exact fun h => by simp at h
      | file =>
        simp only [wp_bind]
        refine wp_trivial (fun _ _ => wp_trivial (fun _ _ h => ?_) fun _ _ => trivial)
          fun _ _ => trivial
        simp at h
      | dir =>
        simp only [wp_bind]
        refine wp_trivial (fun _ _ => wp_trivial (fun _ _ h => ?_) fun _ _ => trivial)
          fun _ _ => trivial
        simp at h
    unfold wp at hgone
    rw [h] at hgone
    exact absurd rfl hgone

end RootHelper
