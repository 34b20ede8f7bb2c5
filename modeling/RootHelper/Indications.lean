import RootHelper.CopyOutcome

/-!
The stream of a copy as a client reads it: end markers, skips with what they count, and errors,
between numbers and questions that mean none of these.
-/

set_option autoImplicit false

namespace RootHelper
open Posix Control

inductive Indication where
  | eof
  | skip (files size : Nat)
  | error
  deriving DecidableEq, Repr

/-- What the next number is: a mark, or one of the two a skip is followed by. -/
inductive Awaited where
  | mark | files | size (files : Nat)

def markOf (n : Nat) : List Indication :=
  if n = EOF_ind then [.eof] else if n = ERR_ind then [.error] else []

def indications : Awaited → List Chunk → List Indication
  | _, [] => []
  | .mark, .u64 n :: cs =>
    if n = SKIP_ind then indications .files cs else markOf n ++ indications .mark cs
  | .files, .u64 files :: cs => indications (.size files) cs
  | .size files, .u64 size :: cs => .skip files size :: indications .mark cs
  | _, _ :: cs => indications .mark cs

def skippedFiles : List Indication → Nat
  | [] => 0
  | .skip files _ :: is => files + skippedFiles is
  | _ :: is => skippedFiles is

/-- The files told of one by one, and those skipped. -/
def accountedFor (is : List Indication) : Nat := is.count .eof + skippedFiles is

theorem skippedFiles_append (is js : List Indication) :
    skippedFiles (is ++ js) = skippedFiles is + skippedFiles js := by
  induction is with
  | nil => simp [skippedFiles]
  | cons i is ih => cases i <;> simp [skippedFiles,ih,Nat.add_assoc]

theorem accountedFor_append (is js : List Indication) :
    accountedFor (is ++ js) = accountedFor is + accountedFor js := by
  unfold accountedFor
  rw [List.count_append,skippedFiles_append]
  omega

/-- Where marks are awaited, `cs` is read as `is`. -/
def Reads (cs : List Chunk) (is : List Indication) : Prop :=
  ∀ rest, indications .mark (cs ++ rest) = is ++ indications .mark rest

theorem Reads.nil : Reads [] [] := fun _ => rfl

theorem Reads.append {cs ds : List Chunk} {is js : List Indication} (h : Reads cs is)
    (h' : Reads ds js) : Reads (cs ++ ds) (is ++ js) := by
  intro rest
  rw [List.append_assoc,h,h',List.append_assoc]

theorem reads_u64 {n : Nat} (h : n ≠ SKIP_ind) : Reads [.u64 n] (markOf n) := by
  intro rest
  simp [indications,h]

theorem reads_skip (files size : Nat) :
    Reads [.u64 SKIP_ind,.u64 files,.u64 size] [.skip files size] := by
  intro rest
  simp [indications]

theorem reads_small {n : Nat} (h : n < 2^63) : Reads [.u64 n] [] := by
  have hmark : n ≠ SKIP_ind ∧ n ≠ EOF_ind ∧ n ≠ ERR_ind := by
    unfold SKIP_ind EOF_ind ERR_ind maxuint
    omega
  have hnone : markOf n = [] := by simp [markOf,hmark.2.1,hmark.2.2]
  exact hnone ▸ reads_u64 hmark.1

theorem reads_progress {progress : Nat} {ps : List Str} (h : progress + ps.flatten.length < 2^63) :
    Reads (progressChunks progress ps) [] := by
  induction ps generalizing progress with
  | nil => exact .nil
  | cons p ps ih =>
    rw [List.flatten_cons,List.length_append] at h
    have hfirst : Reads [.u64 (progress + p.length)] [] := reads_small (by omega)
    exact hfirst.append (ih (by omega))

theorem reads_transfer {size : Nat} {ps : List Str} (hsize : size < 2^63)
    (hps : ps.flatten.length < 2^63) :
    Reads (transferChunks size ps ++ [.u64 EOF_ind]) [.eof] := by
  have hprogress : Reads (progressChunks 0 ps) [] := reads_progress (by omega)
  have heof : Reads [.u64 EOF_ind] [.eof] := reads_u64 (by decide)
  exact ((reads_small hsize).append hprogress).append heof

/-- On the way from `s` to `t` the client was shown `is`, and the counts stayed. -/
structure Shows (is : List Indication) (s t : CopyState) : Prop where
  counts : t.descendantCountMap = s.descendantCountMap
  out : ∃ cs, t.sock.out = s.sock.out ++ cs ∧ Reads cs is

variable {env : CopyEnv} {s t u v : CopyState} {is js : List Indication}

theorem Shows.start (s : CopyState) : Shows [] s s := ⟨rfl,[],by simp,.nil⟩

theorem Shows.trans (h : Shows is s t) (h' : Shows js t u) : Shows (is ++ js) s u := by
  obtain ⟨hmap,cs,hcs,his⟩ := h
  obtain ⟨hmap',ds,hds,hjs⟩ := h'
  exact ⟨hmap'.trans hmap,cs ++ ds,by rw [hds,hcs,List.append_assoc],his.append hjs⟩

theorem Shows.aside (h : Shows is s t) (hmap : u.descendantCountMap = t.descendantCountMap)
    (hout : u.sock.out = t.sock.out) : Shows is s u :=
  ⟨hmap.trans h.counts,hout ▸ h.out⟩

/-- `x` shows `is`, unless it stops the thread. -/
def Showing {α : Type} (is : List Indication) (x : CopyM α) : Prop :=
  ∀ s, wp x (fun _ t => Shows is s t) (fun _ _ => True) s

section Showing

variable {α β : Type}

theorem Showing.bind {x : CopyM β} {f : β → CopyM α} (hx : Showing is x)
    (hf : ∀ b, Showing js (f b)) : Showing (is ++ js) (x >>= f) := by
  intro s
  rw [wp_bind]
  refine wp_mono (hx s) (fun b t ht => ?_) fun _ _ _ => trivial
  exact wp_mono (hf b t) (fun _ u hu => ht.trans hu) fun _ _ _ => trivial

theorem showing_pure (a : α) : Showing [] (pure a) := Shows.start

theorem showing_send {c : Chunk} (hc : c.encode ≠ []) (h : Reads [c] is) : Showing is (send c) := by
  intro s
  rw [wp_send_iff hc]
  exact ⟨fun _ => ⟨rfl,[c],rfl,h⟩,fun _ => trivial⟩

theorem showing_get {f : CopyState → CopyM α} (h : ∀ s, Showing is (f s)) :
    Showing is (get >>= f) := fun s => h s s

theorem showing_modify {f : CopyState → CopyState}
    (h : ∀ s, (f s).descendantCountMap = s.descendantCountMap ∧ (f s).sock.out = s.sock.out) :
    Showing [] (modify f : CopyM PUnit) := fun s => (Shows.start s).aside (h s).1 (h s).2

theorem writeAllOrExit_reads {c : Chunk} (h : Reads [c] []) (k : Conn) :
    wp (writeAllOrExit c) (fun _ k' => ∃ cs, k'.out = k.out ++ cs ∧ Reads cs []) (fun _ _ => True)
      k := by
  by_cases hc : c.encode = []
  · simp only [writeAllOrExit,wp_bind,wp_get,if_pos hc,wp_pure]
    exact ⟨[],by simp,.nil⟩
  · rw [wp_writeAllOrExit_iff hc]
    exact ⟨fun _ => ⟨[c],rfl,h⟩,fun _ => trivial⟩

theorem showing_sendString (str : Str) : Showing [] (onSock (writeStringWithLen str)) := by
  intro s
  rw [wp_onSock,writeStringWithLen,wp_bind]
  refine wp_mono (writeAllOrExit_reads (fun _ => rfl) s.sock) (fun _ k hk => ?_) fun _ _ _ => trivial
  obtain ⟨cs,hcs,hreads⟩ := hk
  refine wp_mono (writeAllOrExit_reads (fun _ => rfl) k) (fun _ k' hk' => ?_) fun _ _ _ => trivial
  obtain ⟨ds,hds,hreads'⟩ := hk'
  exact ⟨rfl,cs ++ ds,by rw [hds,hcs,List.append_assoc],hreads.append hreads'⟩

theorem showing_question (srcI destI : Str) : Showing [] (do
    onSock (writeStringWithLen srcI)
    onSock (writeStringWithLen destI)
    let s ← get
    send (.u8 s.lastCEInfo.srcType)
    send (.u8 s.lastCEInfo.destType)
    modify fun s => { s with questions := s.questions+1 }
    match ← onSock readByte with
    | some ret => pure ret
    | none => pure (env.unread s.questions)) := by
  have hbyte : ∀ b, Showing [] (send (.u8 b)) := fun b =>
    showing_send (by simp [Chunk.encode]) fun _ => rfl
  have hread : Showing [] (onSock readByte) := by
    intro s
    rw [wp_onSock,wp_readByte]
    split <;> exact ⟨rfl,[],by simp,.nil⟩
  refine (showing_sendString srcI).bind fun _ => (showing_sendString destI).bind fun _ => ?_
  refine showing_get fun s => (hbyte _).bind fun _ => (hbyte _).bind fun _ => ?_
  refine (showing_modify (by intro _; exact ⟨rfl,rfl⟩)).bind fun _ => hread.bind fun r => ?_
  cases r <;> exact showing_pure _

theorem showing_waitConflictOrErrorDec (srcI destI : Str) (isConflict : Bool) :
    Showing (if isConflict then [] else [.error])
      (waitConflictOrErrorDec env srcI destI isConflict) := by
  have hmark : Showing (if isConflict then [] else [.error])
      (send (.u64 (if isConflict then CFL_ind else ERR_ind))) := by
    refine showing_send (by simp [Chunk.encode,littleEndian]) ?_
    cases isConflict with
    | true => exact @reads_u64 CFL_ind (by decide)
    | false => exact @reads_u64 ERR_ind (by decide)
  have h := hmark.bind fun _ => @showing_question env srcI destI
  rwa [List.append_nil] at h

theorem unsolvableError_shows (srcI destI : Str) (hs : Shows [] s t) :
    wp (unsolvableError env srcI destI) (fun _ u => Shows [.error] s u ∧ Aside t u)
      (fun _ _ => True) t := by
  have hshow : wp (unsolvableError env srcI destI) (fun _ u => Shows [.error] t u)
      (fun _ _ => True) t := by
    rw [unsolvableError,wp_bind]
    refine wp_mono (showing_waitConflictOrErrorDec srcI destI false t) (fun dec u hu => ?_)
      fun _ _ _ => trivial
    rw [wp_ite]
    exact ⟨fun _ => trivial,fun _ => hu⟩
  refine wp_mono (wp_and hshow (aside_unsolvableError srcI destI t)) (fun _ u hu => ?_)
    fun _ _ _ => trivial
  exact ⟨hs.trans hu.1,hu.2⟩

theorem sendSkipInfo_shows (srcI : Str) (hs : Shows [] s t) :
    wp (sendSkipInfo srcI)
      (fun _ u => Shows [.skip (s.descendantCountMap srcI).tFiles (s.descendantCountMap srcI).tSize] s u ∧
        u.S = t.S ∧ u.disk = t.disk) (fun _ _ => True) t := by
  have hlong : ∀ n, (Chunk.u64 n).encode ≠ [] := by simp [Chunk.encode,littleEndian]
  obtain ⟨hmap,cs,hcs,hreads⟩ := hs
  rw [sendSkipInfo,wp_bind,wp_send_iff (hlong _)]
  refine ⟨fun _ => ?_,fun _ => trivial⟩
  rw [wp_bind,wp_get,wp_bind,wp_send_iff (hlong _)]
  refine ⟨fun _ => ?_,fun _ => trivial⟩
  rw [wp_send_iff (hlong _)]
  refine ⟨fun _ => ?_,fun _ => trivial⟩
  refine ⟨⟨hmap,cs ++ [.u64 SKIP_ind,.u64 (s.descendantCountMap srcI).tFiles,
    .u64 (s.descendantCountMap srcI).tSize],?_,hreads.append (reads_skip _ _)⟩,rfl,rfl⟩
  simp [Conn.sent,hcs,hmap]

end Showing

end RootHelper
