import RootHelper.Control.Traces
import RootHelper.PipelinedCreation

/-!
The request for a file of random bytes, with the label of a hash and the name of a cipher as the client
has sent them. The tables are read at the index of the label, which is -1 for one that is not there, and
what the library says of the names is not looked at.
-/

set_option autoImplicit false

namespace RootHelper
open Posix Control

namespace RandomFile

/-- What is done on the way. -/
inductive RandomEvent where
  /-- Both tables are read at an index. -/
  | lookup (idx : Int)
  | created
  | respond (ret : Int)
  /-- An object is used; its initialisation had success or not. -/
  | useHash (initialised : Bool)
  | useCipher (initialised : Bool)
  deriving DecidableEq, Repr

/-- What `botan_hash_init` and `botan_cipher_init` take, and whether the processor has instructions for AES.
The library knows the names in the tables. -/
structure CryptoLibrary where
  hash_init : Str → Bool
  cipher_init : Str → Bool
  has_aes_hw_instructions : Bool
  hash_known : ∀ label ∈ rh_hashLabels, hash_init label = true
  cipher_known : ∀ name ∈ streamCiphers, cipher_init name = true

abbrev RandomM := EStateM Stop (Conn × List RandomEvent)

def vecIndexOf (v : List Str) (K : Str) : Int := if K ∈ v then v.idxOf K else -1

/-- `v[idx]`: there is nothing in front of the first and behind the last element. -/
def elementAt {α : Type} (v : List α) (idx : Int) : Option α :=
  if 0 ≤ idx then v[idx.toNat]? else none

section Model

variable (lib : CryptoLibrary) (outcome : CreateOutcome)

def usedCipher (backendCipher : Str) : Str :=
  if backendCipher ≠ [] then cstr backendCipher
  else if lib.has_aes_hw_instructions then text ['A','E','S','-','2','5','6','/','C','T','R']
  else text ['C','h','a','C','h','a']

/-- Whether the object for the hash of the file is initialised, if there is to be one. -/
def initOutputHash (output_hash : Str) : RandomM (Option Bool) :=
  if output_hash = [] then pure none
  else do
    let idx := vecIndexOf cli_hashLabels (toUpperCase output_hash)
    note (.lookup idx)
    match elementAt rh_hashLabels idx,elementAt rh_hashSizes idx with
    | some label,some _ => pure (some (lib.hash_init label))
    | _,_ => throw .crash

def hashSeed (seed : Str) : RandomM Unit :=
  if seed = [] then pure () else note (.useHash (lib.hash_init (hashLabel 3)))

def noteHash : Option Bool → RandomM Unit
  | none => pure ()
  | some initialised => note (.useHash initialised)

/-- The chunks from the one of number `i` on are encrypted, written and hashed. -/
def writeRandomChunks (enc : Bool) (hash_out : Option Bool) : List Nat → Nat → Nat → RandomM Unit
  | [], _, _ => pure ()
  | delta :: rest, i, curSize => do
    note (.useCipher enc)
    if outcome.takes i then do
      noteHash hash_out
      let curSize := (curSize + delta) % 2^64
      plain (publish curSize (outcome.ticks i))
      writeRandomChunks enc hash_out rest (i+1) curSize
    else throw .threadExit

def createRandomFile (size : Nat) (seed output_hash backendCipher : Str) : RandomM retHash := do
  let hash_out ← initOutputHash lib output_hash
  hashSeed lib seed
  let enc := lib.cipher_init (usedCipher lib backendCipher)
  match outcome.create with
  | some errno => do
    note (.respond (-1))
    plain (sendBaseResponse (-1) errno)
    pure ⟨[],errno⟩
  | none => do
    note .created
    note (.respond 0)
    plain (sendBaseResponse 0 0)
    writeRandomChunks outcome enc hash_out (chunks HASH_BLOCK_SIZE size) 0 0
    noteHash hash_out
    pure ⟨if output_hash ≠ [] then outcome.digest else [],0⟩

/-- What `createFileOrDirectory` does with the options of such a request. -/
def createRandom (creationStrategy : Byte) (filesize : Nat) (seed output_hash backend_cipher : Str) :
    RandomM Unit := do
  let retH ← createRandomFile lib outcome filesize seed output_hash backend_cipher
  plain (writeAllOrExit (.u64 maxuint))
  if bit creationStrategy 3 then plain (writeStringWithLen retH.hash) else pure ()

end Model

def HashNamed (output_hash : Str) : Prop := output_hash = [] ∨ toUpperCase output_hash ∈ cli_hashLabels

/-- The tables are only read where they are, an unknown name is refused before there is a file, and no
object is used that has not been initialised. -/
structure Checked (known : Str → Prop) (output_hash backend_cipher : Str) (log : List RandomEvent) :
    Prop where
  inRange : ∀ idx : Int, .lookup idx ∈ log →
    0 ≤ idx ∧ idx < rh_hashLabels.length ∧ idx < rh_hashSizes.length
  refused : ¬ (HashNamed output_hash ∧ (backend_cipher = [] ∨ known backend_cipher)) →
    .respond (-1) ∈ log ∧ .created ∉ log
  initialised : ∀ initialised, .useHash initialised ∈ log ∨ .useCipher initialised ∈ log →
    initialised = true

section Runs

variable {lib : CryptoLibrary} {outcome : CreateOutcome}

def Used (enc : Bool) (hash_out : Option Bool) (e : RandomEvent) : Prop :=
  e = .useCipher enc ∨ ∃ initialised, hash_out = some initialised ∧ e = .useHash initialised

theorem notes_noteHash {enc : Bool} {hash_out : Option Bool} :
    Moves (Notes (Used enc hash_out)) (noteHash hash_out) := by
  cases hash_out with
  | none => exact moves_pure _
  | some initialised => exact notes_note (.inr ⟨initialised,rfl,rfl⟩)

theorem notes_writeRandomChunks {enc : Bool} {hash_out : Option Bool} (deltas : List Nat)
    (i curSize : Nat) :
    Moves (Notes (Used enc hash_out)) (writeRandomChunks outcome enc hash_out deltas i curSize) := by
  induction deltas generalizing i curSize with
  | nil => exact moves_pure _
  | cons delta rest ih =>
    refine (notes_note (.inl rfl)).bind fun _ => Moves.ite ?_ (moves_throw _)
    exact notes_noteHash.bind fun _ => (notes_plain _).bind fun _ => ih _ _

theorem initOutputHash_named {output_hash : Str} (h : HashNamed output_hash)
    (s : Conn × List RandomEvent) :
    ∃ hash_out new, initOutputHash lib output_hash s = .ok hash_out (s.1,s.2 ++ new) ∧
      hash_out ≠ some false ∧ ∀ e ∈ new, ∃ idx : Int, e = .lookup idx ∧
        0 ≤ idx ∧ idx < rh_hashLabels.length ∧ idx < rh_hashSizes.length := by
  by_cases hempty : output_hash = []
  · refine ⟨none,[],?_,by simp,by simp⟩
    rw [initOutputHash,if_pos hempty,List.append_nil]
    rfl
  · have hmem := h.resolve_left hempty
    let idx := cli_hashLabels.idxOf (toUpperCase output_hash)
    have hlt : idx < 12 := List.idxOf_lt_length_iff.mpr hmem
    have hlabels : rh_hashLabels.length = 12 := rfl
    have hsizes : rh_hashSizes.length = 12 := rfl
    have hindex : vecIndexOf cli_hashLabels (toUpperCase output_hash) = idx := if_pos hmem
    have hlabel : elementAt rh_hashLabels idx = some (rh_hashLabels.get ⟨idx,by omega⟩) := by
      rw [elementAt,if_pos (Int.natCast_nonneg _),Int.toNat_natCast]
      exact List.getElem?_eq_getElem (by omega)
    have hsize : elementAt rh_hashSizes idx = some (rh_hashSizes.get ⟨idx,by omega⟩) := by
      rw [elementAt,if_pos (Int.natCast_nonneg _),Int.toNat_natCast]
      exact List.getElem?_eq_getElem (by omega)
    refine ⟨some (lib.hash_init (rh_hashLabels.get ⟨idx,by omega⟩)),[.lookup idx],?_,?_,?_⟩
    · rw [initOutputHash,if_neg hempty]
      simp only [hindex,hlabel,hsize]
      rfl
    · rw [lib.hash_known _ (List.get_mem _ _)]
      simp
    · intro e he
      exact ⟨idx,by simpa using he,by omega,by omega,by omega⟩

theorem initOutputHash_unnamed {output_hash : Str} (h : ¬ HashNamed output_hash)
    (s : Conn × List RandomEvent) :
    initOutputHash lib output_hash s = .error .crash (s.1,s.2 ++ [.lookup (-1)]) := by
  unfold HashNamed at h
  push Not at h
  rw [initOutputHash,if_neg h.1]
  simp only [vecIndexOf,if_neg h.2]
  rfl

def Sound (e : RandomEvent) : Prop :=
  (∃ idx : Int, e = .lookup idx ∧ 0 ≤ idx ∧ idx < rh_hashLabels.length ∧ idx < rh_hashSizes.length) ∨
    e = .useHash true

theorem notes_answer {P : RandomEvent → Prop} (creationStrategy : Byte) (retH : retHash) :
    Moves (Notes P) (do
      plain (writeAllOrExit (.u64 maxuint))
      if bit creationStrategy 3 then plain (writeStringWithLen retH.hash) else pure ()) :=
  (notes_plain _).bind fun _ => Moves.ite (notes_plain _) (moves_pure _)

def Answered (create : Option Nat) (enc : Bool) (hash_out : Option Bool) (new : List RandomEvent) :
    Prop :=
  match create with
  | some _ => new = [.respond (-1)]
  | none => ∃ rest, new = .created :: .respond 0 :: rest ∧ ∀ e ∈ rest, Used enc hash_out e

theorem hashSeed_run {seed : Str} (s : Conn × List RandomEvent) :
    ∃ events, hashSeed lib seed s = .ok () (s.1,s.2 ++ events) ∧
      ∀ e ∈ events, e = RandomEvent.useHash true := by
  unfold hashSeed
  by_cases hseed : seed = []
  · exact ⟨[],by rw [if_pos hseed,List.append_nil]; rfl,by simp⟩
  · have hknown : lib.hash_init (hashLabel 3) = true := lib.hash_known _ (by decide)
    exact ⟨[.useHash true],by rw [if_neg hseed,hknown]; rfl,by simp⟩

theorem createRandom_log {output_hash : Str} (h : HashNamed output_hash) (creationStrategy : Byte)
    (filesize : Nat) (seed backend_cipher : Str) (s : Conn × List RandomEvent) :
    ∃ hash_out before, hash_out ≠ some false ∧ (∀ e ∈ before, Sound e) ∧
      Leaves (fun t => ∃ new, t.2 = s.2 ++ before ++ new ∧
        Answered outcome.create (lib.cipher_init (usedCipher lib backend_cipher)) hash_out new)
        (createRandom lib outcome creationStrategy filesize seed output_hash backend_cipher) s := by
  obtain ⟨hash_out,new,hrun,hout,hnew⟩ := @initOutputHash_named lib output_hash h s
  obtain ⟨events,hseed,hevents⟩ := @hashSeed_run lib seed (s.1,s.2 ++ new)
  dsimp only at hseed
  rw [List.append_assoc] at hseed
  refine ⟨hash_out,new ++ events,hout,?_,?_⟩
  · intro e he
    exact (List.mem_append.mp he).elim (fun he => .inl (hnew e he)) fun he => .inr (hevents e he)
  · unfold Leaves createRandom createRandomFile
    rw [wp_bind,wp_bind,wp_of_ok hrun,wp_bind,wp_of_ok hseed]
    cases hcreate : outcome.create with
    | some errno =>
      have hrest : Moves (Notes fun _ : RandomEvent => False) (do
          plain (sendBaseResponse (-1) errno)
          pure (⟨[],errno⟩ : retHash)) := (notes_plain _).bind fun _ => moves_pure _
      have hall := hrest.bind fun retH => notes_answer creationStrategy retH
      specialize hall (s.1,s.2 ++ (new ++ events) ++ [.respond (-1)])
      rw [Leaves,wp_bind] at hall
      have hend : ∀ t, Notes (fun _ : RandomEvent => False)
          (s.1,s.2 ++ (new ++ events) ++ [.respond (-1)]) t →
          ∃ new', t.2 = s.2 ++ (new ++ events) ++ new' ∧ Answered (some errno)
            (lib.cipher_init (usedCipher lib backend_cipher)) hash_out new' := by
        rintro t ⟨rest,ht,hnone⟩
        have hempty : rest = [] := List.eq_nil_iff_forall_not_mem.mpr hnone
        exact ⟨[.respond (-1)],by rw [ht,hempty,List.append_nil],rfl⟩
      dsimp only
      rw [wp_bind,wp_note]
      exact wp_mono hall (fun _ _ h => wp_mono h (fun _ => hend) fun _ => hend) fun _ => hend
    | none =>
      let enc := lib.cipher_init (usedCipher lib backend_cipher)
      have hrest : Moves (Notes (Used enc hash_out)) (do
          plain (sendBaseResponse 0 0)
          writeRandomChunks outcome enc hash_out (chunks HASH_BLOCK_SIZE filesize) 0 0
          noteHash hash_out
          pure (⟨if output_hash ≠ [] then outcome.digest else [],0⟩ : retHash)) :=
        (notes_plain _).bind fun _ => (notes_writeRandomChunks _ _ _).bind fun _ =>
          notes_noteHash.bind fun _ => moves_pure _
      have hall := hrest.bind fun retH => notes_answer creationStrategy retH
      specialize hall (s.1,s.2 ++ (new ++ events) ++ [.created] ++ [.respond 0])
      rw [Leaves,wp_bind] at hall
      have hend : ∀ t, Notes (Used enc hash_out)
          (s.1,s.2 ++ (new ++ events) ++ [.created] ++ [.respond 0]) t →
          ∃ new', t.2 = s.2 ++ (new ++ events) ++ new' ∧ Answered none enc hash_out new' := by
        rintro t ⟨rest,ht,hused⟩
        refine ⟨.created :: .respond 0 :: rest,?_,rest,rfl,hused⟩
        rw [ht]
        simp only [List.append_assoc,List.cons_append,List.nil_append]
      dsimp only
      rw [wp_bind,wp_note,wp_bind,wp_note]
      exact wp_mono hall (fun _ _ h => wp_mono h (fun _ => hend) fun _ => hend) fun _ => hend

end Runs

section Erasure

variable {β : Type} {lib : CryptoLibrary} {outcome : CreateOutcome}

theorem erases_noteHash {hash_out : Option Bool} {f : Unit → RandomM β} {y : ConnM β}
    (h : Erases (f ()) y) : Erases (noteHash hash_out >>= f) y := by
  cases hash_out with
  | none => exact h
  | some initialised => exact h.note

theorem erases_writeRandomChunks {enc : Bool} {hash_out : Option Bool} (deltas : List Nat)
    (i curSize : Nat) : Erases (writeRandomChunks outcome enc hash_out deltas i curSize)
      (writeChunks outcome deltas i curSize) := by
  induction deltas generalizing i curSize with
  | nil => exact erases_pure ()
  | cons delta rest ih =>
    refine Erases.note ?_
    unfold writeChunks
    split_ifs
    · exact erases_noteHash ((erases_plain _).bind fun _ => ih _ _)
    · exact erases_throw _

theorem erases_content (enc : Bool) (hash_out : Option Bool) (size : Nat) (hash : Str) :
    Erases (match outcome.create with
      | some errno => do
        note (.respond (-1))
        plain (sendBaseResponse (-1) errno)
        pure (⟨[],errno⟩ : retHash)
      | none => do
        note .created
        note (.respond 0)
        plain (sendBaseResponse 0 0)
        writeRandomChunks outcome enc hash_out (chunks HASH_BLOCK_SIZE size) 0 0
        noteHash hash_out
        pure (⟨hash,0⟩ : retHash)) (createContent outcome HASH_BLOCK_SIZE size hash) := by
  unfold createContent
  cases outcome.create with
  | some errno => exact Erases.note ((erases_plain _).bind fun _ => erases_pure _)
  | none =>
    refine Erases.note (Erases.note ((erases_plain _).bind fun _ => ?_))
    exact (erases_writeRandomChunks _ _ _).bind fun _ => erases_noteHash (erases_pure _)

theorem erases_createRandomFile (size : Nat) (seed output_hash backendCipher : Str) :
    Erases (createRandomFile lib outcome size seed output_hash backendCipher)
      (RootHelper.createRandomFile outcome size seed output_hash backendCipher) := by
  intro k log
  by_cases hnamed : HashNamed output_hash
  · obtain ⟨hash_out,new,hrun,_,_⟩ := @initOutputHash_named lib output_hash hnamed (k,log)
    obtain ⟨events,hseed,_⟩ := @hashSeed_run lib seed (k,log ++ new)
    have hknown : ¬ (output_hash ≠ [] ∧ toUpperCase output_hash ∉ cli_hashLabels) :=
      fun h => hnamed.elim h.1 h.2
    unfold createRandomFile RootHelper.createRandomFile
    rw [if_neg hknown,run_bind_ok hrun,run_bind_ok hseed]
    exact erases_content _ hash_out size _ k _
  · have hknown : output_hash ≠ [] ∧ toUpperCase output_hash ∉ cli_hashLabels := by
      unfold HashNamed at hnamed
      push Not at hnamed
      exact hnamed
    refine ⟨log ++ [.lookup (-1)],?_⟩
    unfold RootHelper.createRandomFile
    rw [if_pos hknown]
    change EStateM.bind (initOutputHash lib output_hash) _ (k,log) = _
    unfold EStateM.bind
    rw [initOutputHash_unnamed hnamed]
    rfl

end Erasure

section Requests

variable {lib : CryptoLibrary} {outcome : CreateOutcome} {known : Str → Prop}
  {output_hash backend_cipher : Str}

theorem cipher_init_used (hknown : ∀ name, known name → lib.cipher_init (cstr name) = true)
    (h : backend_cipher = [] ∨ known backend_cipher) :
    lib.cipher_init (usedCipher lib backend_cipher) = true := by
  unfold usedCipher
  by_cases hempty : backend_cipher = []
  · rw [if_neg (not_not.mpr hempty)]
    refine lib.cipher_known _ ?_
    split_ifs
    · decide
    · decide
  · rw [if_pos hempty]
    exact hknown _ (h.resolve_left hempty)

theorem checked_of_sound {log : List RandomEvent}
    (hsound : ∀ e ∈ log, Sound e ∨ e = .useCipher true ∨ e = .created ∨ ∃ ret, e = .respond ret)
    (hrefused : ¬ (HashNamed output_hash ∧ (backend_cipher = [] ∨ known backend_cipher)) →
      .respond (-1) ∈ log ∧ .created ∉ log) : Checked known output_hash backend_cipher log := by
  refine ⟨fun idx hidx => ?_,hrefused,fun initialised huse => ?_⟩
  · rcases hsound _ hidx with (⟨idx',heq,hrange⟩ | heq) | heq | heq | ⟨_,heq⟩
    · cases heq
      exact hrange
    all_goals cases heq
  · rcases huse with huse | huse
    · rcases hsound _ huse with (⟨_,heq,_⟩ | heq) | heq | heq | ⟨_,heq⟩
      all_goals cases heq
      rfl
    · rcases hsound _ huse with (⟨_,heq,_⟩ | heq) | heq | heq | ⟨_,heq⟩
      all_goals cases heq
      rfl

theorem sound_of_used {hash_out : Option Bool} (hout : hash_out ≠ some false) {e : RandomEvent}
    (h : Used true hash_out e) : Sound e ∨ e = .useCipher true := by
  rcases h with rfl | ⟨initialised,hinit,rfl⟩
  · exact .inr rfl
  · cases initialised with
    | false => exact absurd hinit hout
    | true => exact .inl (.inr rfl)

theorem created_not_sound : ¬ Sound .created := by
  rintro (⟨_,heq,_⟩ | heq)
  all_goals cases heq

/-- A request is answered as it should where its hash is in the table, and where its cipher is known or the
file cannot be created; `known` are names the library takes. -/
theorem createRandom_right (lib : CryptoLibrary) (outcome : CreateOutcome) (known : Str → Prop)
    (hknown : ∀ name, known name → lib.cipher_init (cstr name) = true) (creationStrategy : Byte)
    (filesize : Nat) (seed output_hash backend_cipher : Str) (k : Conn) :
    Leaves (fun t => Checked known output_hash backend_cipher t.2)
        (createRandom lib outcome creationStrategy filesize seed output_hash backend_cipher) (k,[]) ↔
      HashNamed output_hash ∧
        (backend_cipher = [] ∨ known backend_cipher ∨ outcome.create ≠ none) := by
  rw [leaves_iff]
  by_cases hnamed : HashNamed output_hash
  · obtain ⟨hash_out,before,hout,hbefore,hrun⟩ :=
      @createRandom_log lib outcome output_hash hnamed creationStrategy filesize seed backend_cipher (k,[])
    rw [leaves_iff] at hrun
    obtain ⟨new,hlog,hanswered⟩ := hrun
    rw [and_iff_right hnamed,hlog,List.nil_append]
    cases hcreate : outcome.create with
    | some errno =>
      rw [hcreate] at hanswered
      obtain rfl : new = [.respond (-1)] := hanswered
      refine iff_of_true (checked_of_sound (fun e he => ?_) fun _ => ⟨by simp,fun hmem => ?_⟩) (by simp)
      · rcases List.mem_append.mp he with he | he
        · exact .inl (hbefore e he)
        · exact .inr (.inr (.inr ⟨-1,by simpa using he⟩))
      · rcases List.mem_append.mp hmem with hmem | hmem
        · exact created_not_sound (hbefore _ hmem)
        · simp at hmem
    | none =>
      rw [hcreate] at hanswered
      obtain ⟨rest,rfl,hused⟩ := hanswered
      have hgood : (backend_cipher = [] ∨ known backend_cipher ∨ (none : Option Nat) ≠ none) ↔
          backend_cipher = [] ∨ known backend_cipher := by simp
      rw [hgood]
      constructor
      · intro hchecked
        by_contra hcipher
        refine (hchecked.refused fun h => hcipher h.2).2 ?_
        exact List.mem_append_right _ List.mem_cons_self
      · intro hcipher
        rw [cipher_init_used hknown hcipher] at hused
        refine checked_of_sound (fun e he => ?_) fun h => absurd ⟨hnamed,hcipher⟩ h
        rcases List.mem_append.mp he with he | he
        · exact .inl (hbefore e he)
        · rcases List.mem_cons.mp he with rfl | he
          · exact .inr (.inr (.inl rfl))
          · rcases List.mem_cons.mp he with rfl | he
            · exact .inr (.inr (.inr ⟨0,rfl⟩))
            · exact (sound_of_used hout (hused e he)).imp_right .inl
  · refine iff_of_false (fun hchecked => ?_) fun h => hnamed h.1
    have hlog : Leaves (fun t => t.2 = [.lookup (-1)]) (createRandom lib outcome creationStrategy
        filesize seed output_hash backend_cipher) (k,[]) := by
      unfold Leaves createRandom createRandomFile
      rw [wp_bind,wp_bind]
      unfold wp
      rw [initOutputHash_unnamed hnamed]
      rfl
    rw [leaves_iff] at hlog
    rw [hlog] at hchecked
    have hrange := (hchecked.inRange (-1) List.mem_cons_self).1
    omega

end Requests

/-- A library that takes the names in the tables and no others. -/
def tableLibrary : CryptoLibrary where
  hash_init label := label ∈ rh_hashLabels
  cipher_init name := name ∈ streamCiphers
  has_aes_hw_instructions := true
  hash_known _ h := decide_eq_true h
  cipher_known _ h := decide_eq_true h

def freshFile : CreateOutcome := ⟨fun _ _ _ => (0,0),none,fun _ => true,fun _ => 0,[]⟩

def noConn : Conn := ⟨[],[],none,false⟩

/-- A hash "FOO" is looked up in front of the tables. With a cipher "FOO" the file is created, the answer
is OK, and the bytes go through an object that is not there. -/
theorem createRandom_wrong :
    (final (createRandom tableLibrary freshFile 10 4 [] (text ['F','O','O']) []) (noConn,[])).2 =
      [.lookup (-1)] ∧
    (final (createRandom tableLibrary freshFile 18 4 [] [] (text ['F','O','O'])) (noConn,[])).2 =
      [.created,.respond 0,.useCipher false] ∧
    ¬ Leaves (fun t => Checked (fun name => name ∈ streamCiphers) (text ['F','O','O']) [] t.2)
      (createRandom tableLibrary freshFile 10 4 [] (text ['F','O','O']) []) (noConn,[]) ∧
    ¬ Leaves (fun t => Checked (fun name => name ∈ streamCiphers) [] (text ['F','O','O']) t.2)
      (createRandom tableLibrary freshFile 18 4 [] [] (text ['F','O','O'])) (noConn,[]) := by
  have hhash : (final (createRandom tableLibrary freshFile 10 4 [] (text ['F','O','O']) [])
      (noConn,[])).2 = [.lookup (-1)] := by decide +kernel
  have hcipher : (final (createRandom tableLibrary freshFile 18 4 [] [] (text ['F','O','O']))
      (noConn,[])).2 = [.created,.respond 0,.useCipher false] := by decide +kernel
  refine ⟨hhash,hcipher,fun h => ?_,fun h => ?_⟩
  · rw [leaves_iff,hhash] at h
    have hrange := (h.inRange (-1) List.mem_cons_self).1
    omega
  · rw [leaves_iff,hcipher] at h
    exact absurd (h.initialised false (.inr (by simp))) (by decide)

/-- A known hash, in small letters, and the second of the ciphers. -/
theorem createRandom_right_known :
    Leaves (fun t => Checked (fun name => name ∈ streamCiphers) (text ['m','d','5'])
        (text ['A','E','S','-','1','2','8','/','C','T','R']) t.2)
      (createRandom tableLibrary freshFile 26 4 [] (text ['m','d','5'])
        (text ['A','E','S','-','1','2','8','/','C','T','R'])) (noConn,[]) :=
  (createRandom_right tableLibrary freshFile (fun name => name ∈ streamCiphers)
    (fun name hname => by
      have hall : ∀ name ∈ streamCiphers, cstr name ∈ streamCiphers := by decide
      exact decide_eq_true (hall name hname)) 26 4 [] _ _ noConn).mpr
    ⟨.inr (by decide),.inr (.inl (by decide))⟩

end RandomFile

end RootHelper
