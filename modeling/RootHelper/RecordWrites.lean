import RootHelper.LocalSessions
import RootHelper.SmartLinks

/-!
The records of a list, written field by field with single writes, and the three senders of such lists.
A result of -1 is not told where it is compared with a `sizeof`; what is told ends the list.
-/

set_option autoImplicit false

namespace RootHelper
open Posix Control

structure find_resp_t where
  fileItem : ls_resp_t
  contentAround : Str
  offset : UInt64
  deriving DecidableEq, Repr

section Model

variable {ε σ : Type}

/-- The results are compared as those of `writels_resp`: with a `size_t` where the length is a `sizeof`. -/
def writefind_resp (write : Str → EStateM ε σ Int) (dataContainer : find_resp_t) : EStateM ε σ Int := do
  let ret ← writels_resp write dataContainer.fileItem
  if ret ≠ 0 then return -1
  let len1 := dataContainer.contentAround.length % 256
  let written ← write (littleEndian 1 len1)
  if 0 ≤ written ∧ written < 1 then return -1
  if len1 = 0 then return 0
  let written ← write (dataContainer.contentAround.take len1)
  if written < len1 then return -1
  let written ← write (littleEndian 8 dataContainer.offset.toNat)
  if 0 ≤ written ∧ written < 8 then return -1
  return 0

variable (inOutDesc : ServerEnd ε σ) (v : View) (readlink : Str → Option Str) (threadExit : ε)
  (interrupted : EStateM ε σ Bool) (rq : FindRequest)

/-- What both loops of a search do with an entry; `filename` is what it is sent as. -/
def findEntry (filepathname haystack filename : Str) : EStateM ε σ Unit := do
  if ← interrupted then throw threadExit
  let upper := fun s => if b2 rq.searchFlags then toUppercaseStringCopy s else s
  if upper rq.namepattern <:+: upper haystack then
    match assemble_ls_resp_from_filepath v filepathname filename with
    | none => pure ()
    | some fileItem => do
      let ret ← writefind_resp inOutDesc.write ⟨fileItem,[],0⟩
      if ret < 0 then throw threadExit else pure ()
  else pure ()

/-- `while ((dir = readdir(d)) != nullptr)`; with `fullPathAsName` a record is named by the whole path. -/
def findPlain (basepath : Str) : List Name → EStateM ε σ Unit
  | [] => pure ()
  | d_name :: names => do
    let filepathname := pathConcat basepath d_name
    findEntry inOutDesc v threadExit interrupted rq filepathname d_name filepathname
    findPlain basepath names

/-- `while (dirIt.next())` -/
def findRecursive : Nat → DirIterator → EStateM ε σ Unit
  | 0, _ => throw inOutDesc.desc.diverges
  | turns+1, dirIt =>
    match DirIterator.next { v.answers with readlink := readlink } dirIt with
    | none => pure ()
    | some dirIt => do
      findEntry inOutDesc v threadExit interrupted rq dirIt.current dirIt.currentName dirIt.current
      findRecursive turns dirIt

/-- `for(auto& basepath: basePaths)` -/
def findBelow (turns flags : Nat) : List Str → EStateM ε σ Unit
  | [] => pure ()
  | basepath :: basePaths => do
    if b1 flags then findPlain inOutDesc v threadExit interrupted rq basepath ((v.opendir basepath).getD [])
    else
      findRecursive inOutDesc v readlink threadExit interrupted rq turns
        (DirIterator.createIterator { v.answers with readlink := readlink } (smartSearch basepath))
    findBelow turns flags basePaths

/-- What `findNamesAndContent` does once it has read its request and registered the search. -/
def performSearch (turns flags : Nat) : EStateM ε σ Unit := do
  inOutDesc.desc.sendBaseResponse 0 0
  findBelow inOutDesc v readlink threadExit interrupted rq turns flags rq.basePaths
  inOutDesc.desc.writeAllOrExit (.u16 0)
  inOutDesc.close

end Model

/-- A field of a record, and whether the result of writing it is compared with a `size_t`. -/
structure RecordField where
  buf : Str
  sized : Bool
  deriving DecidableEq, Repr

namespace RecordField

/-- The comparison with the length finds this result short. -/
def Refuses (f : RecordField) (written : Int) : Prop :=
  written < f.buf.length ∧ (f.sized = true → 0 ≤ written)

instance (f : RecordField) (written : Int) : Decidable (f.Refuses written) := by
  unfold Refuses
  infer_instance

end RecordField

section Fields

variable {ε σ : Type} (write : Str → EStateM ε σ Int)

def writeFields : List RecordField → EStateM ε σ Int
  | [] => pure 0
  | f :: fs => do
    let written ← write f.buf
    if f.Refuses written then pure (-1) else writeFields fs

def ls_resp_t.fields (e : ls_resp_t) : List RecordField :=
  [⟨littleEndian 2 (e.filename.length % 65536),true⟩,
    ⟨e.filename.take (e.filename.length % 65536),false⟩,
    ⟨littleEndian 4 e.date.toNat,true⟩,⟨e.permissions.take 10,false⟩,⟨littleEndian 8 e.size.toNat,true⟩]

def find_resp_t.contentFields (e : find_resp_t) : List RecordField :=
  ⟨littleEndian 1 (e.contentAround.length % 256),true⟩ ::
    if e.contentAround.length % 256 = 0 then []
    else [⟨e.contentAround.take (e.contentAround.length % 256),false⟩,
      ⟨littleEndian 8 e.offset.toNat,true⟩]

def find_resp_t.fields (e : find_resp_t) : List RecordField := e.fileItem.fields ++ e.contentFields

theorem writels_resp_eq {e : ls_resp_t} (hperm : e.permissions.length = 10) :
    writels_resp write e = writeFields write e.fields := by
  have hlen : (e.filename.take (e.filename.length % 65536)).length = e.filename.length % 65536 :=
    length_cutString e.filename
  simp only [writels_resp,ls_resp_t.fields,writeFields,RecordField.Refuses,length_littleEndian,hlen,
    List.length_take,hperm,Nat.min_self,forall_const,Bool.false_eq_true,false_implies,and_true,
    Nat.cast_ofNat]
  simp only [and_comm]

theorem writeFields_append (fs gs : List RecordField) :
    writeFields write (fs ++ gs) =
      writeFields write fs >>= fun ret => if ret ≠ 0 then pure (-1) else writeFields write gs := by
  induction fs with
  | nil => simp [writeFields]
  | cons f fs ih =>
    simp only [List.cons_append,writeFields,bind_assoc]
    refine bind_congr fun written => ?_
    split_ifs
    · simp
    · exact ih

theorem writefind_resp_eq {e : find_resp_t} (hperm : e.fileItem.permissions.length = 10) :
    writefind_resp write e = writeFields write e.fields := by
  have hlen : (e.contentAround.take (e.contentAround.length % 256)).length =
      e.contentAround.length % 256 := by
    rw [List.length_take]
    exact Nat.min_eq_left (Nat.mod_le _ _)
  rw [find_resp_t.fields,writeFields_append,← writels_resp_eq write hperm,writefind_resp]
  refine bind_congr fun ret => ?_
  by_cases hret : ret ≠ 0
  · rw [if_pos hret,if_pos hret]
  · rw [if_neg hret,if_neg hret,find_resp_t.contentFields]
    by_cases hnone : e.contentAround.length % 256 = 0
    · simp [writeFields,RecordField.Refuses,hnone,and_comm]
    · simp [writeFields,RecordField.Refuses,hnone,hlen,and_comm]

end Fields

inductive LineWrite where
  /-- A single write and its result. -/
  | single (buf : Str) (ret : Int)
  /-- By `writeAllOrExit`. -/
  | all (c : Chunk)
  deriving DecidableEq

namespace LineWrite

def bytes : LineWrite → Str
  | single buf ret => buf.take ret.toNat
  | all c => c.encode

def Fails : LineWrite → Prop
  | single buf ret => ret < buf.length
  | all _ => False

instance (w : LineWrite) : Decidable w.Fails := by
  cases w <;> unfold Fails <;> infer_instance

end LineWrite

structure Line where
  log : List LineWrite
  /-- How often it has been looked whether the search goes on. -/
  checks : Nat

section Connection

-- What becomes of each write: nothing for -1, else how much is taken if there is as much.
variable (results : Nat → Option Nat)

def Line.result (s : Line) (buf : Str) : Int :=
  match results s.log.length with
  | none => -1
  | some n => min n buf.length

def Line.add (s : Line) (w : LineWrite) : Line := { s with log := s.log ++ [w] }

def singleWrite (buf : Str) : EStateM Stop Line Int := fun s =>
  .ok (s.result results buf) (s.add (.single buf (s.result results buf)))

/-- Ends the thread where a write fails. -/
def allWrite (c : Chunk) : EStateM Stop Line Unit := fun s =>
  match results s.log.length with
  | none => .error .threadExit (s.add (.all c))
  | some _ => .ok () (s.add (.all c))

def lineEnd : ServerEnd Stop Line where
  desc := {
    readAllOrExit := fun _ => throw .threadExit
    writeAllOrExit := allWrite results
    diverges := .diverged }
  write := singleWrite results
  close := pure ()

/-- Another client may cancel the search between any two checks. -/
def checkCancelled (cancelled : Nat → Bool) : EStateM Stop Line Bool := fun s =>
  .ok (cancelled s.checks) { s with checks := s.checks + 1 }

end Connection

section Told

variable (results : Nat → Option Nat)

/-- No write from the `n`-th on is found short: it takes all its field, or it fails and its result is
compared with a `size_t`. -/
def Accepted : Nat → List RecordField → Prop
  | _, [] => True
  | n, f :: fs =>
    (match results n with
      | none => f.sized = true
      | some m => f.buf.length ≤ m) ∧ Accepted (n + 1) fs

/-- Every write from the `n`-th on takes all its field. -/
def TakenWhole : Nat → List RecordField → Prop
  | _, [] => True
  | n, f :: fs => (∃ m, results n = some m ∧ f.buf.length ≤ m) ∧ TakenWhole (n + 1) fs

/-- What `writeFields` leaves: its result and the writes it adds. -/
structure FieldsWritten (fs : List RecordField) (s : Line) (ret : Int) (new : List LineWrite) : Prop where
  only : ret = 0 ∨ ret = -1
  accepted : ret = 0 ↔ Accepted results s.log.length fs
  taken : ret = 0 → ((∀ w ∈ new, ¬ w.Fails) ↔ TakenWhole results s.log.length fs)
  bytes : TakenWhole results s.log.length fs → new.flatMap LineWrite.bytes = fs.flatMap RecordField.buf

variable {results} {s : Line}

theorem refuses_result {f : RecordField} : ¬ f.Refuses (s.result results f.buf) ↔
    match results s.log.length with
    | none => f.sized = true
    | some m => f.buf.length ≤ m := by
  unfold Line.result RecordField.Refuses
  cases results s.log.length with
  | none =>
    simp only
    constructor
    · intro h
      by_contra hsized
      exact h ⟨by omega,fun hs => absurd hs hsized⟩
    · intro hsized h
      have hle := h.2 hsized
      omega
  | some m =>
    simp only
    constructor
    · intro h
      by_contra hlt
      exact h ⟨by omega,fun _ => by omega⟩
    · intro hle h
      omega

theorem fails_result {buf : Str} : ¬ (LineWrite.single buf (s.result results buf)).Fails ↔
    ∃ m, results s.log.length = some m ∧ buf.length ≤ m := by
  unfold Line.result LineWrite.Fails
  cases results s.log.length with
  | none =>
    simp only [reduceCtorEq,false_and,exists_false,iff_false,not_not]
    omega
  | some m =>
    simp only [Option.some.injEq,exists_eq_left']
    omega

theorem writeFields_run (fs : List RecordField) (s : Line) :
    ∃ ret new, writeFields (singleWrite results) fs s = .ok ret { s with log := s.log ++ new } ∧
      FieldsWritten results fs s ret new := by
  induction fs generalizing s with
  | nil =>
    refine ⟨0,[],by simp [writeFields,pure,EStateM.pure],.inl rfl,?_,?_,?_⟩
    · simp [Accepted]
    · simp [TakenWhole]
    · simp
  | cons f fs ih =>
    let w := LineWrite.single f.buf (s.result results f.buf)
    have hrun : writeFields (singleWrite results) (f :: fs) s =
        (if f.Refuses (s.result results f.buf) then pure (-1)
          else writeFields (singleWrite results) fs) (s.add w) := rfl
    rw [hrun]
    by_cases hrefuses : f.Refuses (s.result results f.buf)
    · have hno : ¬ Accepted results s.log.length (f :: fs) := fun h => refuses_result.mpr h.1 hrefuses
      have hshort : ¬ TakenWhole results s.log.length (f :: fs) := by
        intro h
        obtain ⟨m,hm,hle⟩ := h.1
        refine refuses_result.mpr ?_ hrefuses
        rw [hm]
        exact hle
      rw [if_pos hrefuses]
      refine ⟨-1,[w],rfl,.inr rfl,iff_of_false (by decide) hno,?_,fun h => absurd h hshort⟩
      intro h
      exact absurd h (by decide)
    · rw [if_neg hrefuses]
      obtain ⟨ret,new,hnew,h⟩ := ih (s.add w)
      have hlen : (s.add w).log.length = s.log.length + 1 := by simp [Line.add]
      have hlog : (s.add w).log ++ new = s.log ++ (w :: new) := by simp [Line.add]
      rw [hlog] at hnew
      obtain ⟨honly,haccepted,htaken,hbytes⟩ := h
      rw [hlen] at haccepted htaken hbytes
      refine ⟨ret,w :: new,hnew,honly,?_,fun hret => ?_,fun h => ?_⟩
      · rw [haccepted,Accepted,and_iff_right (refuses_result.mp hrefuses)]
      · rw [List.forall_mem_cons,htaken hret,TakenWhole,fails_result]
      · obtain ⟨⟨m,hm,hle⟩,hrest⟩ := h
        have hall : s.result results f.buf = f.buf.length := by
          unfold Line.result
          rw [hm]
          simp only
          omega
        rw [List.flatMap_cons,List.flatMap_cons,hbytes hrest]
        simp only [w,LineWrite.bytes,hall,Int.toNat_natCast,List.take_length]

/-- A record is not taken for written unless all its bytes are, in order, and a write that is short or
fails is told. -/
def Right (record : Str) (x : EStateM Stop Line Int) (s : Line) : Prop :=
  wp x (fun ret t => ∃ new, t.log = s.log ++ new ∧ (ret = 0 → new.flatMap LineWrite.bytes = record) ∧
    ((∃ w ∈ new, w.Fails) → ret = -1)) (fun _ _ => False) s

theorem right_writeFields {record : Str} {fs : List RecordField} :
    Right record (writeFields (singleWrite results) fs) s ↔
      (Accepted results s.log.length fs →
        TakenWhole results s.log.length fs ∧ fs.flatMap RecordField.buf = record) := by
  obtain ⟨ret,new,hrun,h⟩ := @writeFields_run results fs s
  unfold Right
  rw [wp_of_ok hrun]
  constructor
  · rintro ⟨new',hnew,hrecord,htold⟩ haccepted
    obtain rfl := List.append_cancel_left hnew
    have hret := h.accepted.mpr haccepted
    have htaken : TakenWhole results s.log.length fs := by
      refine (h.taken hret).mp fun w hw hfails => ?_
      have hno := htold ⟨w,hw,hfails⟩
      omega
    exact ⟨htaken,by rw [← h.bytes htaken,hrecord hret]⟩
  · intro hright
    refine ⟨new,rfl,fun hret => ?_,fun ⟨w,hw,hfails⟩ => ?_⟩
    · obtain ⟨htaken,hbytes⟩ := hright (h.accepted.mp hret)
      rw [h.bytes htaken,hbytes]
    · refine h.only.resolve_left fun hret => ?_
      have htaken := (hright (h.accepted.mp hret)).1
      exact (h.taken hret).mpr htaken w hw hfails

end Told

/-- The record of an entry: the offset goes with the content. -/
def find_resp_t.bytes (e : find_resp_t) : Str :=
  e.fileItem.bytes ++ (littleEndian 1 e.contentAround.length ++
    if e.contentAround = [] then [] else e.contentAround ++ littleEndian 8 e.offset.toNat)

section Whole

theorem ls_resp_t.length_fields {e : ls_resp_t} (hperm : e.permissions.length = 10) :
    (e.fields.flatMap RecordField.buf).length = 24 + e.filename.length % 65536 := by
  have hlen : (e.filename.take (e.filename.length % 65536)).length = e.filename.length % 65536 :=
    length_cutString e.filename
  simp only [ls_resp_t.fields,List.flatMap_cons,List.flatMap_nil,List.length_append,
    length_littleEndian,hlen,List.length_take,hperm,List.length_nil]
  omega

theorem ls_resp_t.length_bytes {e : ls_resp_t} (hperm : e.permissions.length = 10) :
    e.bytes.length = 24 + e.filename.length := by
  simp only [ls_resp_t.bytes,List.length_append,length_littleEndian,hperm]
  omega

theorem ls_resp_t.fields_eq {e : ls_resp_t} (hperm : e.permissions.length = 10)
    (hlt : e.filename.length < 65536) : e.fields.flatMap RecordField.buf = e.bytes := by
  simp only [ls_resp_t.fields,ls_resp_t.bytes,List.flatMap_cons,List.flatMap_nil,List.append_nil,
    Nat.mod_eq_of_lt hlt,List.take_length,← hperm]

theorem ls_resp_t.fields_whole {e : ls_resp_t} (hperm : e.permissions.length = 10) :
    e.fields.flatMap RecordField.buf = e.bytes ↔ e.filename.length < 65536 := by
  refine ⟨fun h => ?_,ls_resp_t.fields_eq hperm⟩
  have hlen := congrArg List.length h
  rw [ls_resp_t.length_fields hperm,ls_resp_t.length_bytes hperm] at hlen
  omega

theorem find_resp_t.fields_whole {e : find_resp_t} (hperm : e.fileItem.permissions.length = 10) :
    e.fields.flatMap RecordField.buf = e.bytes ↔
      e.fileItem.filename.length < 65536 ∧ e.contentAround.length < 256 := by
  rw [find_resp_t.fields,find_resp_t.bytes,List.flatMap_append,find_resp_t.contentFields]
  constructor
  · intro h
    have hlen := congrArg List.length h
    rw [List.length_append,List.length_append,ls_resp_t.length_fields hperm,
      ls_resp_t.length_bytes hperm] at hlen
    by_cases hnone : e.contentAround.length % 256 = 0
    · rw [if_pos hnone] at hlen
      by_cases hempty : e.contentAround = []
      · simp [hempty] at hlen ⊢
        omega
      · simp [hempty] at hlen
        omega
    · have hempty : e.contentAround ≠ [] := fun hempty => hnone (by rw [hempty]; rfl)
      rw [if_neg hnone,if_neg hempty] at hlen
      simp at hlen
      omega
  · rintro ⟨hname,hcontent⟩
    rw [ls_resp_t.fields_eq hperm hname,Nat.mod_eq_of_lt hcontent]
    by_cases hempty : e.contentAround = []
    · simp [hempty]
    · rw [if_neg (by simpa using hempty),if_neg hempty]
      simp

end Whole

/-! ### Lists -/

section Lists

variable {ρ : Type} (record : ρ → EStateM Stop Line Int)

/-- A record is accepted, or there is no single write. -/
def ListGoes (s t : Line) : Prop :=
  (∃ e, record e s = .ok 0 t) ∨ t.log = s.log ∨ ∃ c, t.log = s.log ++ [.all c]

/-- The first record that is not accepted is the last that is written at all. -/
def ListEnds (s t : Line) : Prop :=
  ∃ u, Relation.ReflTransGen (ListGoes record) s u ∧
    (t.log = u.log ∨ ∃ e ret w, ret ≠ 0 ∧ record e u = .ok ret w ∧ t.log = w.log)

/-- Whoever calls `x` may go on where it returns. -/
def Proceeds {α : Type} (x : EStateM Stop Line α) : Prop :=
  ∀ s, wp x (fun _ => Relation.ReflTransGen (ListGoes record) s) (fun _ => ListEnds record s) s

/-- The results of a writer of records: whatever happens, 0 or -1. -/
def Decides (x : EStateM Stop Line Int) : Prop :=
  ∀ s, ∃ ret t, x s = .ok ret t ∧ (ret = 0 ∨ ret = -1)

variable {record} {α β : Type} {s t u : Line}

theorem ListEnds.of_goes (h : Relation.ReflTransGen (ListGoes record) s t) : ListEnds record s t :=
  ⟨t,h,.inl rfl⟩

theorem ListEnds.before (h : Relation.ReflTransGen (ListGoes record) s t) (h' : ListEnds record t u) :
    ListEnds record s u := by
  obtain ⟨w,hw,hlast⟩ := h'
  exact ⟨w,h.trans hw,hlast⟩

theorem proceeds_pure (a : α) : Proceeds record (pure a) := fun _ => .refl

theorem proceeds_throw (e : Stop) : Proceeds record (throw e : EStateM Stop Line α) :=
  fun _ => .of_goes .refl

theorem Proceeds.bind {x : EStateM Stop Line α} {f : α → EStateM Stop Line β}
    (h : Proceeds record x) (hf : ∀ a, Proceeds record (f a)) : Proceeds record (x >>= f) := by
  intro s
  rw [wp_bind]
  refine wp_mono (h s) (fun a t ht => ?_) fun _ _ h => h
  exact wp_mono (hf a t) (fun _ u hu => ht.trans hu) fun _ u hu => hu.before ht

theorem Proceeds.leaves {x : EStateM Stop Line α} (h : Proceeds record x) (s : Line) :
    Leaves (ListEnds record s) x s :=
  wp_mono (h s) (fun _ _ ht => .of_goes ht) fun _ _ h => h

theorem Proceeds.leaves_bind {x : EStateM Stop Line α} {f : α → EStateM Stop Line β}
    (h : Proceeds record x) (hf : ∀ a t, Leaves (ListEnds record t) (f a) t) (s : Line) :
    Leaves (ListEnds record s) (x >>= f) s := by
  unfold Leaves
  rw [wp_bind]
  refine wp_mono (h s) (fun a t ht => ?_) fun _ _ h => h
  exact wp_mono (hf a t) (fun _ u hu => hu.before ht) fun _ u hu => hu.before ht

theorem Proceeds.ite {c : Prop} [Decidable c] {x y : EStateM Stop Line α} (hx : Proceeds record x)
    (hy : Proceeds record y) : Proceeds record (if c then x else y) := by
  split_ifs
  · exact hx
  · exact hy

theorem proceeds_allWrite {results : Nat → Option Nat} (c : Chunk) :
    Proceeds record (allWrite results c) := by
  intro s
  have hgoes : ListGoes record s (s.add (.all c)) := .inr (.inr ⟨c,rfl⟩)
  unfold wp allWrite
  cases results s.log.length with
  | none => exact .of_goes (.single hgoes)
  | some n => exact .single hgoes

theorem proceeds_sendBaseResponse {results : Nat → Option Nat} (ret : Int) (errno : Nat) :
    Proceeds record ((lineEnd results).desc.sendBaseResponse ret errno) :=
  Proceeds.ite (proceeds_allWrite _) ((proceeds_allWrite _).bind fun _ => proceeds_allWrite _)

theorem proceeds_checkCancelled (cancelled : Nat → Bool) :
    Proceeds record (checkCancelled cancelled) :=
  fun _ => .single (.inr (.inl rfl))

theorem proceeds_record (hdecides : ∀ e, Decides (record e)) (e : ρ) :
    Proceeds record (record e >>= fun ret => if ret < 0 then throw .threadExit else pure ()) := by
  intro s
  obtain ⟨ret,t,hrecord,hret⟩ := hdecides e s
  rw [wp_bind,wp_of_ok hrecord]
  rcases hret with rfl | rfl
  · exact .single (.inl ⟨e,hrecord⟩)
  · exact ⟨s,.refl,.inr ⟨e,-1,t,by decide,hrecord,rfl⟩⟩

end Lists

section Senders

variable {results : Nat → Option Nat}

theorem decides_pure {ret : Int} (h : ret = 0 ∨ ret = -1) : Decides (pure ret) :=
  fun s => ⟨ret,s,rfl,h⟩

theorem decides_write {buf : Str} {f : Int → EStateM Stop Line Int} (h : ∀ r, Decides (f r)) :
    Decides (singleWrite results buf >>= f) :=
  fun s => h (s.result results buf) (s.add (.single buf (s.result results buf)))

theorem decides_ite {c : Prop} [Decidable c] {x : EStateM Stop Line Int} (h : Decides x) :
    Decides (if c then pure (-1) else x) := by
  split_ifs
  · exact decides_pure (.inr rfl)
  · exact h

theorem decides_writels_resp (e : ls_resp_t) : Decides (writels_resp (singleWrite results) e) := by
  unfold writels_resp
  refine decides_write fun _ => decides_ite ?_
  refine decides_write fun _ => decides_ite ?_
  refine decides_write fun _ => decides_ite ?_
  refine decides_write fun _ => decides_ite ?_
  exact decides_write fun _ => decides_ite (decides_pure (.inl rfl))

theorem decides_writefind_resp (e : find_resp_t) : Decides (writefind_resp (singleWrite results) e) := by
  intro s
  obtain ⟨ret,t,hrun,hret⟩ := @decides_writels_resp results e.fileItem s
  have hcontent : Decides (if ret ≠ 0 then pure (-1) else do
      let len1 := e.contentAround.length % 256
      let written ← singleWrite results (littleEndian 1 len1)
      if 0 ≤ written ∧ written < 1 then return -1
      if len1 = 0 then return 0
      let written ← singleWrite results (e.contentAround.take len1)
      if written < len1 then return -1
      let written ← singleWrite results (littleEndian 8 e.offset.toNat)
      if 0 ≤ written ∧ written < 8 then return -1
      return 0) := by
    refine decides_ite (decides_write fun _ => decides_ite ?_)
    split_ifs
    · exact decides_pure (.inl rfl)
    · refine decides_write fun _ => decides_ite ?_
      exact decides_write fun _ => decides_ite (decides_pure (.inl rfl))
  obtain ⟨ret',t',hrun',hret'⟩ := hcontent t
  refine ⟨ret',t',?_,hret'⟩
  unfold writefind_resp
  rw [run_bind_ok hrun]
  exact hrun'

section Directories

variable {v : View}

theorem sendEntries_ends (turns : Nat) (it : readdirIterator) (s : Line) :
    wp (sendEntries (lineEnd results) v turns it)
      (fun whole t => ListEnds (writels_resp (singleWrite results)) s t ∧ (whole = true →
        Relation.ReflTransGen (ListGoes (writels_resp (singleWrite results))) s t))
      (fun _ => ListEnds (writels_resp (singleWrite results)) s) s := by
  induction turns generalizing it s with
  | zero => exact .of_goes .refl
  | succ turns ih =>
    rw [sendEntries]
    cases it.next v with
    | none => exact ⟨.of_goes .refl,fun _ => .refl⟩
    | some i =>
      obtain ⟨i,it⟩ := i
      dsimp only
      cases assemble_ls_resp_from_filepath v i.current i.currentName with
      | none => exact ih it s
      | some e =>
        obtain ⟨ret,t,hrun,hret⟩ := @decides_writels_resp results e s
        change wp (writels_resp (singleWrite results) e >>= _) _ _ s
        rw [wp_bind,wp_of_ok hrun]
        rcases hret with rfl | rfl
        · have hgoes : ListGoes (writels_resp (singleWrite results)) s t := .inl ⟨e,hrun⟩
          refine wp_mono (ih it t) (fun whole u hu => ?_) fun _ u hu => hu.before (.single hgoes)
          exact ⟨hu.1.before (.single hgoes),fun hwhole => .head hgoes (hu.2 hwhole)⟩
        · exact ⟨⟨s,.refl,.inr ⟨e,-1,t,by decide,hrun,rfl⟩⟩,fun h => absurd h (by decide)⟩

theorem listing_ends (turns : Nat) (it : readdirIterator) (s : Line) :
    Leaves (ListEnds (writels_resp (singleWrite results)) s) (do
      if ← sendEntries (lineEnd results) v turns it then (lineEnd results).desc.writeAllOrExit (.u16 0)
      else pure ()) s := by
  unfold Leaves
  rw [wp_bind]
  refine wp_mono (sendEntries_ends turns it s) (fun whole t ht => ?_) fun _ _ h => h
  cases whole with
  | false => exact ht.1
  | true =>
    have hmark : Leaves (ListEnds (writels_resp (singleWrite results)) t)
        (allWrite results (.u16 0)) t := (proceeds_allWrite _).leaves t
    exact wp_mono hmark (fun _ _ h => h.before (ht.2 rfl)) fun _ _ h => h.before (ht.2 rfl)

theorem listDir_ends (homePath path : Str) (access : Str → Bool) (errno : Nat) (s : Line) :
    Leaves (ListEnds (writels_resp (singleWrite results)) s)
      (listDir (lineEnd results) v homePath access errno path) s := by
  unfold listDir
  dsimp only
  by_cases haccess : access (if path = [] then homePath else path) = true
  · rw [if_pos haccess]
    exact (proceeds_sendBaseResponse _ _).leaves s
  · rw [if_neg haccess]
    cases readdirIterator.createIterator v (if path = [] then homePath else path) .FULL .PLAIN false
        false with
    | none => exact (proceeds_sendBaseResponse _ _).leaves s
    | some it =>
      dsimp only
      split_ifs with hempty
      · refine Proceeds.leaves_bind (proceeds_allWrite _) (fun _ => ?_) s
        refine Proceeds.leaves_bind ?_ fun _ => listing_ends _ it
        exact (proceeds_allWrite _).bind fun _ => proceeds_allWrite _
      · exact Proceeds.leaves_bind (proceeds_sendBaseResponse _ _) (fun _ => listing_ends _ it) s

end Directories

theorem proceeds_writeLsResps (entries : List ls_resp_t) :
    Proceeds (writels_resp (singleWrite results))
      (writeLsResps (lineEnd results) .threadExit entries) := by
  induction entries with
  | nil => exact proceeds_pure _
  | cons entry entries ih => exact (proceeds_record decides_writels_resp entry).bind fun _ => ih

theorem proceeds_listArchiveInternal (lib : ArchiveLibrary) (processExit : Stop)
    (archivepath password : Str) :
    Proceeds (writels_resp (singleWrite results))
      (listArchiveInternal (lineEnd results) lib .threadExit processExit archivepath password) := by
  unfold listArchiveInternal
  refine .ite (proceeds_sendBaseResponse _ _) (.ite (proceeds_throw _) ?_)
  cases lib.opened archivepath password with
  | error ret errno => exact proceeds_sendBaseResponse _ _
  | stream archiveType =>
    refine (proceeds_allWrite _).bind fun _ => ?_
    exact (proceeds_record decides_writels_resp _).bind fun _ => proceeds_allWrite _
  | items items =>
    refine (proceeds_allWrite _).bind fun _ => ?_
    exact (proceeds_writeLsResps _).bind fun _ => proceeds_allWrite _

section Searching

variable {v : View} {readlink : Str → Option Str} {cancelled : Nat → Bool} {rq : FindRequest}

theorem proceeds_findEntry (filepathname haystack filename : Str) :
    Proceeds (writefind_resp (singleWrite results)) (findEntry (lineEnd results) v .threadExit
      (checkCancelled cancelled) rq filepathname haystack filename) := by
  unfold findEntry
  refine (proceeds_checkCancelled cancelled).bind fun interrupted => .ite ?_ ?_
  · exact proceeds_throw _
  · refine .ite ?_ (proceeds_pure _)
    cases assemble_ls_resp_from_filepath v filepathname filename with
    | none => exact proceeds_pure _
    | some fileItem => exact proceeds_record decides_writefind_resp ⟨fileItem,[],0⟩

theorem proceeds_findPlain (basepath : Str) (names : List Name) :
    Proceeds (writefind_resp (singleWrite results)) (findPlain (lineEnd results) v .threadExit
      (checkCancelled cancelled) rq basepath names) := by
  induction names with
  | nil => exact proceeds_pure _
  | cons d_name names ih => exact (proceeds_findEntry _ _ _).bind fun _ => ih

theorem proceeds_findRecursive (turns : Nat) (dirIt : DirIterator) :
    Proceeds (writefind_resp (singleWrite results)) (findRecursive (lineEnd results) v readlink
      .threadExit (checkCancelled cancelled) rq turns dirIt) := by
  induction turns generalizing dirIt with
  | zero => exact proceeds_throw _
  | succ turns ih =>
    rw [findRecursive]
    cases DirIterator.next { v.answers with readlink := readlink } dirIt with
    | none => exact proceeds_pure _
    | some dirIt => exact (proceeds_findEntry _ _ _).bind fun _ => ih dirIt

theorem proceeds_findBelow (turns flags : Nat) (basePaths : List Str) :
    Proceeds (writefind_resp (singleWrite results)) (findBelow (lineEnd results) v readlink
      .threadExit (checkCancelled cancelled) rq turns flags basePaths) := by
  induction basePaths with
  | nil => exact proceeds_pure _
  | cons basepath basePaths ih =>
    rw [findBelow]
    split_ifs
    · exact (proceeds_findPlain _ _).bind fun _ => ih
    · exact (proceeds_findRecursive _ _).bind fun _ => ih

theorem proceeds_performSearch (turns flags : Nat) :
    Proceeds (writefind_resp (singleWrite results)) (performSearch (lineEnd results) v readlink
      .threadExit (checkCancelled cancelled) rq turns flags) := by
  refine (proceeds_sendBaseResponse _ _).bind fun _ => ?_
  refine (proceeds_findBelow turns flags rq.basePaths).bind fun _ => ?_
  exact (proceeds_allWrite _).bind fun _ => proceeds_pure _

end Searching

end Senders

/-- A record that is taken for written is written, where no write that fails goes untold. The senders
end their lists where a writer tells them. -/
theorem records_right (results : Nat → Option Nat) (s : Line) :
    (∀ e : ls_resp_t, e.permissions.length = 10 →
      (Right e.bytes (writels_resp (singleWrite results) e) s ↔
        (Accepted results s.log.length e.fields →
          TakenWhole results s.log.length e.fields ∧ e.filename.length < 65536))) ∧
    (∀ e : find_resp_t, e.fileItem.permissions.length = 10 →
      (Right e.bytes (writefind_resp (singleWrite results) e) s ↔
        (Accepted results s.log.length e.fields →
          TakenWhole results s.log.length e.fields ∧ e.fileItem.filename.length < 65536 ∧
            e.contentAround.length < 256))) ∧
    (∀ v homePath access errno path, Leaves (ListEnds (writels_resp (singleWrite results)) s)
      (listDir (lineEnd results) v homePath access errno path) s) ∧
    (∀ lib processExit archivepath password, Leaves (ListEnds (writels_resp (singleWrite results)) s)
      (listArchiveInternal (lineEnd results) lib .threadExit processExit archivepath password) s) ∧
    (∀ v readlink cancelled rq turns flags, Leaves (ListEnds (writefind_resp (singleWrite results)) s)
      (performSearch (lineEnd results) v readlink .threadExit (checkCancelled cancelled) rq turns flags)
      s) := by
  refine ⟨fun e hperm => ?_,fun e hperm => ?_,fun v homePath access errno path => ?_,?_,?_⟩
  · rw [writels_resp_eq _ hperm,right_writeFields,ls_resp_t.fields_whole hperm]
  · rw [writefind_resp_eq _ hperm,right_writeFields,find_resp_t.fields_whole hperm]
  · exact listDir_ends homePath path access errno s
  · exact fun lib processExit archivepath password =>
      (proceeds_listArchiveInternal lib processExit archivepath password).leaves s
  · exact fun v readlink cancelled rq turns flags => (proceeds_performSearch turns flags).leaves s

/-- The peer is gone when the size is to be written. -/
def goneAtSize : Nat → Option Nat := fun n => if n = 4 then none else some 100

def smallEntry : ls_resp_t := ⟨[97],0,List.replicate 10 45,5⟩

def withoutSize : Line where
  log := [.single [1,0] 2,.single [97] 1,.single [0,0,0,0] 4,.single (List.replicate 10 45) 10,
    .single [5,0,0,0,0,0,0,0] (-1)]
  checks := 0

/-- The record is taken for written, without the eight bytes of the size. -/
theorem records_wrong :
    writels_resp (singleWrite goneAtSize) smallEntry ⟨[],0⟩ = .ok 0 withoutSize ∧
    withoutSize.log.flatMap LineWrite.bytes = smallEntry.bytes.take 17 ∧ smallEntry.bytes.length = 25 ∧
    ¬ Right smallEntry.bytes (writels_resp (singleWrite goneAtSize) smallEntry) ⟨[],0⟩ := by
  have hrun : writels_resp (singleWrite goneAtSize) smallEntry ⟨[],0⟩ = .ok 0 withoutSize := rfl
  refine ⟨hrun,by decide,by decide,fun hright => ?_⟩
  unfold Right at hright
  rw [wp_of_ok hrun] at hright
  obtain ⟨new,hnew,hrecord,_⟩ := hright
  have hbytes : withoutSize.log.flatMap LineWrite.bytes = smallEntry.bytes := by
    rw [hnew]
    exact hrecord rfl
  exact absurd hbytes (by decide)

/-- With every write whole nothing is missing. -/
theorem records_right_whole :
    Right smallEntry.bytes (writels_resp (singleWrite fun _ => some 100) smallEntry) ⟨[],0⟩ :=
  ((records_right (fun _ => some 100) ⟨[],0⟩).1 smallEntry (by decide)).mpr fun _ =>
    ⟨by simp [TakenWhole,smallEntry,ls_resp_t.fields],by decide⟩

end RootHelper
