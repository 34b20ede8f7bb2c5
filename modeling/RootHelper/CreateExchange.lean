import RootHelper.Creation
import RootHelper.RequestBytes

/-!
When the streams are aligned after a file or directory has been created for a remote client.
-/

set_option autoImplicit false

namespace RootHelper
open Posix Control

/-- The local client is still heard, and what is sent to the server goes through. -/
def Between (p : Proxy) (inp : Str) : Prop :=
  Hears [] p.cl inp ∧ p.rcl.closed = false ∧ p.rcl.room = none

theorem cl_readsSome : cl.toSource.ReadsSome Between := fun bs hbs =>
  (conn_readsSome [] bs hbs).run (L := Proxy.clPart)
    (P := fun p => p.rcl.closed = false ∧ p.rcl.room = none) fun _ _ h => h

theorem parses_brcl (c : Chunk) : Parses Between (brcl.writeAllOrExit c) [] () := fun _ _ h => ⟨rfl,h⟩

theorem parses_newBuffer : Parses Between newBuffer [] () := fun _ _ h => ⟨rfl,h⟩

theorem parses_flush : Parses Between flush [] () := by
  intro p rest h
  rw [flush,wp_bind,wp_get]
  by_cases hempty : p.buffer = []
  · rw [if_pos hempty]
    exact ⟨rfl,h⟩
  · rw [if_neg hempty,wp_bind]
    change wp (Proxy.rclPart.run (writeAllOrExit (.bytes p.buffer))) _ _ p
    rw [wp_run,wp_writeAllOrExit_iff (c := .bytes p.buffer) hempty]
    have htakes : p.rcl.takes 1 := ⟨h.2.1,fun r hr => by rw [h.2.2] at hr; cases hr⟩
    refine ⟨fun _ => ⟨rfl,h.1,h.2.1,?_⟩,fun hfull => absurd htakes hfull⟩
    simp [Proxy.rclPart,Conn.sent,h.2.2]

theorem parses_brcl_string (s : Str) : Parses Between (brcl.writeStringWithLen s) [] () :=
  (parses_brcl _).bind (parses_brcl _)

theorem parses_passString {given : Bool} {s : Str} (hs : s.length < 65536) :
    Parses Between (passString given) (optionBytes given s) (if given then s else []) := by
  unfold passString optionBytes
  cases given with
  | false => exact parses_pure []
  | true =>
    simp only [if_true]
    rw [← List.append_nil (stringBytes s)]
    exact (parses_string cl_readsSome hs).bind ((parses_brcl_string s).skip (parses_pure s))

/-- Without the strings that are not sent. -/
def CreateOptions.sent (o : CreateOptions) : CreateOptions :=
  let given (n : Nat) (s : Str) :=
    if bit o.creationStrategy 1 && bit o.creationStrategy n then s else []
  { o with
    prngSeed := given 2 o.prngSeed
    outputHashType := given 3 o.outputHashType
    backendCipher := given 4 o.backendCipher }

theorem CreateOptions.bytes_sent (o : CreateOptions) : o.sent.bytes = o.bytes := by
  have hopt : ∀ (g : Bool) (s : Str), optionBytes g (if g then s else []) = optionBytes g s := by
    intro g s
    cases g <;> rfl
  simp only [bytes,sent,hopt]

theorem parses_passOptions {o : CreateOptions} (ho : o.Fits) :
    Parses Between passOptions o.bytes o.sent := by
  obtain ⟨hsize,hseed,hhash,hcipher⟩ := ho
  refine (parses_u8 cl_readsSome o.creationStrategy).bind
    ((parses_u64 cl_readsSome hsize).bind ?_)
  refine (parses_brcl _).skip ((parses_brcl _).skip ?_)
  refine (parses_passString hseed).bind ((parses_passString hhash).bind ?_)
  exact (parses_passString hcipher).last fun cipher => CreateOptions.mk _ _ _ _ cipher

variable {rq : request_type} {dirpath next : Str} {mode : Nat} {options : Option CreateOptions}

theorem parses_creation_request (hfits : (Sent.create dirpath mode options).Fits rq) :
    Parses Between (client_createFileOrDirectory_request rq)
      (Sent.create dirpath mode options).body (.create dirpath mode (options.map (·.sent))) := by
  obtain ⟨_,hdir,hmode,hsome,hopts⟩ := hfits
  refine (parses_string cl_readsSome hdir).bind ((parses_u32 cl_readsSome hmode).bind ?_)
  have hoptions : Parses Between
      (if b0 rq.flags && b1 rq.flags then some <$> passOptions else pure none)
      (options.elim [] CreateOptions.bytes) (options.map (·.sent)) := by
    cases options with
    | none =>
      rw [if_neg (by simpa using hsome)]
      exact parses_pure none
    | some o =>
      rw [if_pos (by simpa using hsome)]
      exact (parses_passOptions (hopts o rfl)).map some
  refine parses_newBuffer.skip ((parses_brcl _).skip ((parses_brcl_string _).skip
    ((parses_brcl _).skip ?_)))
  rw [← List.append_nil (options.elim [] CreateOptions.bytes)]
  exact hoptions.bind (parses_flush.skip (parses_pure _))

theorem creation_request_passes (next : Str) (hfits : (Sent.create dirpath mode options).Fits rq) :
    ∃ p, client_createFileOrDirectory_request rq
        (localClient ((Sent.create dirpath mode options).body ++ next)) =
          .ok (.create dirpath mode (options.map (·.sent))) p ∧
      Hears [] p.cl next ∧ p.rcl.closed = false ∧
      p.rcl.bytes = rq.byte :: (Sent.create dirpath mode options).body := by
  have hread := parses_creation_request hfits
    (localClient ((Sent.create dirpath mode options).body ++ next)) next ⟨rfl,rfl,rfl⟩
  have hsend := create_sends hfits.1
    (localClient ((Sent.create dirpath mode options).body ++ next))
  unfold wp at hread hsend
  cases hrun : client_createFileOrDirectory_request rq
      (localClient ((Sent.create dirpath mode options).body ++ next)) with
  | error e p => simp [hrun] at hread
  | ok f p =>
    rw [hrun] at hread hsend
    obtain ⟨rfl,hcl,hopen,_⟩ := hread
    obtain ⟨bs,⟨_,rfl⟩,hrcl⟩ := hsend
    refine ⟨p,rfl,hcl,hopen,?_⟩
    have hbody : (Sent.create dirpath mode (options.map (·.sent))).body =
        (Sent.create dirpath mode options).body := by
      cases options with
      | none => rfl
      | some o => simp [Sent.body,CreateOptions.bytes_sent]
    rw [hrcl,hbody,flushed,if_neg (by simp)]
    simp [localClient,Conn.sent,Conn.bytes,Chunk.encode]

/-! ### What the server answers -/

variable {outcome : CreateOutcome} {access : Str → Bool} {o : CreateOptions}

/-- The handler's answer is given with what it has not read of the request still to come. -/
theorem serveCreation_reads (hfits : (Sent.create dirpath mode options).Fits rq)
    {Q : Unit → Conn → Prop} {E : Stop → Conn → Prop}
    (h : wp (creation_response outcome dirpath mode
      (creationOf (access dirpath) rq.flags options)) Q E
        ⟨unread (access dirpath) options,[],none,false⟩) :
    wp (serveCreation outcome access) Q E
      ⟨rq.byte :: (Sent.create dirpath mode options).body,[],none,false⟩ := by
  have hread := conn_readsSome []
  obtain ⟨hrq,hdir,hmode,hsome,hopts⟩ := hfits
  obtain ⟨bs,hbs,hcreation⟩ := parses_creation hread (access dirpath) hsome hopts
  rw [Sent.body,hbs]
  refine (parses_requestType hread rq).before (Eq.refl _) fun k hk => ?_
  rw [if_pos hrq]
  refine (parses_string hread hdir).before hk fun k hk => ?_
  refine (parses_u32 hread hmode).before hk fun k hk => ?_
  refine hcreation.before hk fun k hk => ?_
  rw [hk]
  exact h

theorem prints_write {inp : Str} (c : Chunk) : Prints (Tells inp) (writeAllOrExit c) c.encode :=
  conn_writes inp c

/-- Numbers as the progress thread sends them. -/
def progressBytes (ns : List Nat) : Str := ns.flatMap (littleEndian 8)

theorem prints_publish (inp : Str) {curSize : Nat} (hlt : curSize < 2^64) (ticks : Nat) :
    ∃ ns : List Nat, (∀ n ∈ ns, n < maxuint) ∧
      Prints (Tells inp) (publish curSize ticks) (progressBytes ns) := by
  induction ticks with
  | zero => exact ⟨[],by simp,prints_pure ()⟩
  | succ ticks ih =>
    obtain ⟨ns,hns,hprint⟩ := ih
    by_cases hskip : curSize = 0 ∨ curSize = maxuint
    · refine ⟨ns,hns,?_⟩
      rw [publish,doPublish,if_pos hskip]
      exact hprint
    · refine ⟨curSize :: ns,?_,?_⟩
      · intro n hn
        rcases List.mem_cons.mp hn with rfl | hn
        · unfold maxuint at hskip ⊢
          omega
        · exact hns n hn
      · have hone : Prints (Tells inp) (doPublish curSize) (littleEndian 8 curSize) := by
          rw [doPublish,if_neg hskip]
          intro k cs h
          rw [wp_attempt]
          exact wp_mono (prints_write (.u64 curSize) k cs h) (fun _ _ h => h) fun _ _ h => h.elim
        exact hone.bind fun _ => hprint

/-- All chunks are taken: there is progress, but never the end marker. -/
theorem prints_writeChunks (inp : Str) {l : List Nat} {i : Nat} (curSize : Nat)
    (htakes : ∀ j < l.length, outcome.takes (i+j)) :
    ∃ ns : List Nat, (∀ n ∈ ns, n < maxuint) ∧
      Prints (Tells inp) (writeChunks outcome l i curSize) (progressBytes ns) := by
  induction l generalizing i curSize with
  | nil => exact ⟨[],by simp,prints_pure ()⟩
  | cons delta l ih =>
    have hlt : (curSize + delta) % 2^64 < 2^64 := Nat.mod_lt _ (by decide)
    have hlater : ∀ j < l.length, outcome.takes (i+1+j) := fun j hj => by
      have hnext := htakes (j+1) (by simpa using hj)
      rwa [show i + (j+1) = i+1+j by omega] at hnext
    obtain ⟨ns,hns,hfirst⟩ := prints_publish inp hlt (outcome.ticks i)
    obtain ⟨ms,hms,hrest⟩ := ih ((curSize + delta) % 2^64) hlater
    have hnow : outcome.takes i := htakes 0 (by simp)
    refine ⟨ns ++ ms,fun n hn => ?_,?_⟩
    · rcases List.mem_append.mp hn with hn | hn
      · exact hns n hn
      · exact hms n hn
    · rw [writeChunks,if_pos hnow,progressBytes,List.flatMap_append]
      exact hfirst.bind fun _ => hrest

theorem writeChunks_exits {l : List Nat} {i curSize : Nat} {inp cs : Str} {k : Conn}
    (hk : Tells inp k cs) (hfull : ∃ j < l.length, outcome.takes (i+j) = false) :
    wp (writeChunks outcome l i curSize) (fun _ _ => False) (fun _ _ => True) k := by
  induction l generalizing i curSize cs k with
  | nil => simp at hfull
  | cons delta l ih =>
    rw [writeChunks]
    by_cases hfirst : outcome.takes i
    · have hlt : (curSize + delta) % 2^64 < 2^64 := Nat.mod_lt _ (by decide)
      obtain ⟨ns,_,hprint⟩ := prints_publish inp hlt (outcome.ticks i)
      rw [if_pos hfirst,wp_bind]
      refine wp_mono (hprint k cs hk) (fun _ k' hk' => ih hk' ?_) fun _ _ h => h.elim
      obtain ⟨j,hj,hno⟩ := hfull
      cases j with
      | zero => exact absurd hfirst (by simpa using hno)
      | succ j => exact ⟨j,by simpa using hj,by rwa [show i+1+j = i + (j+1) by omega]⟩
    · rw [if_neg hfirst]
      trivial

def CreateOptions.chunks (o : CreateOptions) : List Nat :=
  RootHelper.chunks (if bit o.creationStrategy 0 then COPY_CHUNK_SIZE else HASH_BLOCK_SIZE)
    o.filesize

/-- A strategy is chosen, and the file is made with all its content. -/
def CreateOptions.Made (outcome : CreateOutcome) (o : CreateOptions) : Prop :=
  (bit o.creationStrategy 0 ∨ bit o.creationStrategy 1) ∧ outcome.create = none ∧
    ∀ i < o.chunks.length, outcome.takes i

def CreateOptions.hashed (o : CreateOptions) : Bool :=
  bit o.creationStrategy 1 && bit o.creationStrategy 3

section Content

variable {inp cs hash : Str} {k : Conn} {chunkSize size : Nat}

theorem prints_response_ok : Prints (Tells inp) (sendBaseResponse 0 0) [RESPONSE_OK] :=
  prints_write (.u8 RESPONSE_OK)

theorem prints_response_error (errno : Nat) :
    Prints (Tells inp) (sendBaseResponse (-1) errno) (RESPONSE_ERROR :: littleEndian 4 errno) :=
  (prints_write (.u8 RESPONSE_ERROR)).bind fun _ => prints_write (.u32 errno)

theorem wp_createContent_made (hmade : outcome.create = none)
    (htakes : ∀ i < (chunks chunkSize size).length, outcome.takes i) (hk : Tells inp k []) :
    wp (createContent outcome chunkSize size hash) (fun _ k' => ∃ ns : List Nat,
      (∀ n ∈ ns, n < maxuint) ∧ Tells inp k' (RESPONSE_OK :: progressBytes ns))
      (fun _ _ => False) k := by
  have hfirst : ∀ j < (chunks chunkSize size).length, outcome.takes (0+j) := fun j hj => by
    rw [Nat.zero_add]
    exact htakes j hj
  obtain ⟨ns,hns,hprint⟩ := prints_writeChunks inp 0 hfirst
  rw [createContent,hmade]
  simp only [wp_bind]
  refine wp_mono (prints_response_ok k [] hk) (fun _ k₁ hk₁ => ?_) fun _ _ h => h
  exact wp_mono (hprint k₁ _ hk₁) (fun _ k₂ hk₂ => ⟨ns,hns,hk₂⟩) fun _ _ h => h

theorem wp_createContent_fails (hnot : ¬ (outcome.create = none ∧
      ∀ i < (chunks chunkSize size).length, outcome.takes i)) (hk : Tells inp k []) :
    wp (createContent outcome chunkSize size hash) (fun _ k' => ∃ errno,
      Tells inp k' (RESPONSE_ERROR :: littleEndian 4 errno)) (fun _ _ => True) k := by
  rw [createContent]
  cases hcreate : outcome.create with
  | some errno =>
    simp only [wp_bind]
    exact wp_mono (prints_response_error errno k [] hk) (fun _ _ h => ⟨errno,h⟩) fun _ _ h => h.elim
  | none =>
    have hfull : ∃ j < (chunks chunkSize size).length, outcome.takes (0+j) = false := by
      simpa [hcreate] using hnot
    simp only [wp_bind]
    refine wp_mono (prints_response_ok k [] hk) (fun _ k₁ hk₁ => ?_) fun _ _ h => h.elim
    exact wp_mono (writeChunks_exits hk₁ hfull) (fun _ _ h => h.elim) fun _ _ h => h

theorem wp_endOfContent (hashed : Bool) (hk : Tells inp k cs) :
    wp (do
        writeAllOrExit (.u64 maxuint)
        if hashed then writeStringWithLen hash else pure ())
      (fun _ k' => ∃ tail, Tells inp k' (cs ++ (littleEndian 8 maxuint ++ tail)) ∧
        (tail = [] ↔ hashed = false)) (fun _ _ => False) k := by
  rw [wp_bind]
  refine wp_mono (prints_write (.u64 maxuint) k cs hk) (fun _ k₁ hk₁ => ?_) fun _ _ h => h
  cases hashed with
  | false => exact ⟨[],by rw [List.append_nil]; exact hk₁,by simp⟩
  | true =>
    obtain ⟨tail,hne,hprint⟩ : ∃ tail : Str, tail ≠ [] ∧
        Prints (Tells inp) (writeStringWithLen hash) tail :=
      ⟨_,by simp [Chunk.encode,littleEndian],
        (prints_write (.u16 (hash.length % 65536))).bind fun _ => prints_write (.bytes _)⟩
    refine wp_mono (hprint k₁ _ hk₁) (fun _ k₂ hk₂ => ⟨tail,?_,by simp [hne]⟩) fun _ _ h => h
    rw [← List.append_assoc]
    exact hk₂

end Content

section Advanced

variable {inp seed hash cipher : Str} {k : Conn}

theorem wp_createAdvanced_made (hmade : o.Made outcome) (hk : Tells inp k []) :
    wp (createAdvanced outcome o.creationStrategy o.filesize seed hash cipher)
      (fun _ k' => ∃ ns : List Nat, (∀ n ∈ ns, n < maxuint) ∧
        Tells inp k' (RESPONSE_OK :: progressBytes ns)) (fun _ _ => hash ≠ []) k := by
  obtain ⟨hstrategy,hcreate,htakes⟩ := hmade
  unfold CreateOptions.chunks at htakes
  unfold createAdvanced
  by_cases hzeros : bit o.creationStrategy 0
  · rw [if_pos hzeros] at htakes
    rw [if_pos hzeros,wp_bind]
    exact wp_mono (wp_createContent_made hcreate htakes hk) (fun _ _ h => h) fun _ _ h => h.elim
  · rw [if_neg hzeros] at htakes
    rw [if_neg hzeros,if_pos (hstrategy.resolve_left hzeros),wp_map,createRandomFile]
    refine wp_ite.mpr ⟨fun hcrash => hcrash.1,fun _ => ?_⟩
    exact wp_mono (wp_createContent_made hcreate htakes hk) (fun _ _ h => h) fun _ _ h => h.elim

theorem wp_createAdvanced_fails (hnot : ¬ o.Made outcome) (hk : Tells inp k []) :
    wp (createAdvanced outcome o.creationStrategy o.filesize seed hash cipher)
      (fun _ k' => Tells inp k' [] ∨ ∃ errno, Tells inp k' (RESPONSE_ERROR :: littleEndian 4 errno))
      (fun _ _ => True) k := by
  unfold CreateOptions.Made CreateOptions.chunks at hnot
  unfold createAdvanced
  by_cases hzeros : bit o.creationStrategy 0
  · rw [if_pos hzeros] at hnot
    rw [if_pos hzeros,wp_bind]
    exact wp_mono (wp_createContent_fails (fun h => hnot ⟨.inl hzeros,h⟩) hk)
      (fun _ _ h => .inr h) fun _ _ h => h
  · rw [if_neg hzeros] at hnot
    rw [if_neg hzeros]
    by_cases hrandom : bit o.creationStrategy 1
    · rw [if_pos hrandom,wp_map,createRandomFile]
      refine wp_ite.mpr ⟨fun _ => trivial,fun _ => ?_⟩
      exact wp_mono (wp_createContent_fails (fun h => hnot ⟨.inr hrandom,h⟩) hk)
        (fun _ _ h => .inr h) fun _ _ h => h
    · rw [if_neg hrandom]
      exact .inl hk

/-- What the server makes of a creation with options. -/
def advanced (o : CreateOptions) : Creation := creationOf false 3 (some o)

theorem creationOf_granted {flags : Nat} (hflag : b0 flags = true) :
    creationOf false flags (some o) = advanced o := by
  simp only [advanced,creationOf,hflag,show b0 3 = true by decide]

/-- The answer is complete; it is not when the hash asked for is unknown. -/
theorem creation_made (hmade : o.Made outcome) (hk : Tells inp k []) :
    wp (creation_response outcome dirpath mode (advanced o))
      (fun _ k' => ∃ (ns : List Nat) (tail : Str), (∀ n ∈ ns, n < maxuint) ∧
        Tells inp k' (RESPONSE_OK :: (progressBytes ns ++ (littleEndian 8 maxuint ++ tail))) ∧
        (tail = [] ↔ o.hashed = false)) (fun _ _ => o.hashed = true) k := by
  simp only [advanced,creationOf]
  rw [if_neg Bool.false_ne_true,if_pos (by decide)]
  simp only [creation_response]
  rw [wp_bind]
  refine wp_mono (wp_createAdvanced_made hmade hk) (fun hash k₁ hk₁ => ?_) fun _ _ hhash => ?_
  · obtain ⟨ns,hns,hk₁⟩ := hk₁
    refine wp_mono (wp_endOfContent o.hashed hk₁) (fun _ k₂ hk₂ => ?_) fun _ _ h => h.elim
    obtain ⟨tail,hk₂,htail⟩ := hk₂
    exact ⟨ns,tail,hns,hk₂,htail⟩
  · simp only [ne_eq,ite_eq_right_iff,Classical.not_imp] at hhash
    unfold CreateOptions.hashed
    revert hhash
    cases bit o.creationStrategy 0 <;> simp +contextual

theorem creation_fails (hnot : ¬ o.Made outcome) (hk : Tells inp k []) :
    wp (creation_response outcome dirpath mode (advanced o))
      (fun _ k' => ∃ (resp : Byte) (errno rest : Str), resp ≠ 0 ∧ errno.length = 4 ∧ rest ≠ [] ∧
        Tells inp k' (resp :: (errno ++ rest))) (fun _ _ => True) k := by
  simp only [advanced,creationOf]
  rw [if_neg Bool.false_ne_true,if_pos (by decide)]
  simp only [creation_response]
  rw [wp_bind]
  refine wp_mono (wp_createAdvanced_fails hnot hk) (fun hash k₁ hk₁ => ?_) fun _ _ h => h
  rcases hk₁ with hk₁ | ⟨errno,hk₁⟩
  · refine wp_mono (wp_endOfContent o.hashed hk₁) (fun _ k₂ hk₂ => ?_) fun _ _ h => h.elim
    obtain ⟨tail,hk₂,_⟩ := hk₂
    have hmax : littleEndian 8 maxuint = 255 :: ([255,255,255,255] ++ [255,255,255]) := by decide
    rw [List.nil_append,hmax,List.cons_append,List.append_assoc] at hk₂
    exact ⟨255,[255,255,255,255],[255,255,255] ++ tail,by decide,rfl,by simp,hk₂⟩
  · refine wp_mono (wp_endOfContent o.hashed hk₁) (fun _ k₂ hk₂ => ?_) fun _ _ h => h.elim
    obtain ⟨tail,hk₂,_⟩ := hk₂
    exact ⟨RESPONSE_ERROR,littleEndian 4 errno,littleEndian 8 maxuint ++ tail,by decide,
      length_littleEndian _ _,by simp [littleEndian],hk₂⟩

end Advanced

theorem creation_plain (denied : Bool) (flags : Nat) {inp : Str} {k : Conn} (hk : Tells inp k []) :
    wp (creation_response outcome dirpath mode (creationOf denied flags none))
      (fun _ k' => Tells inp k' [RESPONSE_OK] ∨
        ∃ errno, Tells inp k' (RESPONSE_ERROR :: littleEndian 4 errno)) (fun _ _ => False) k := by
  have hok : wp (sendBaseResponse 0 0) (fun _ k' => Tells inp k' [RESPONSE_OK] ∨
      ∃ errno, Tells inp k' (RESPONSE_ERROR :: littleEndian 4 errno)) (fun _ _ => False) k :=
    wp_mono (prints_response_ok k [] hk) (fun _ _ h => .inl h) fun _ _ h => h
  have herror : ∀ errno : Nat, wp (sendBaseResponse (-1) errno) (fun _ k' =>
      Tells inp k' [RESPONSE_OK] ∨ ∃ errno, Tells inp k' (RESPONSE_ERROR :: littleEndian 4 errno))
      (fun _ _ => False) k := fun errno =>
    wp_mono (prints_response_error errno k [] hk) (fun _ _ h => .inr ⟨errno,h⟩) fun _ _ h => h
  unfold creationOf
  cases denied with
  | true => exact herror EPERM
  | false =>
    cases b0 flags with
    | false =>
      change wp (sendBaseResponse _ _) _ _ k
      by_cases hret : (outcome.mkpath dirpath mode false).1 = 0
      · rw [hret]
        exact hok
      · rw [sendBaseResponse,if_neg hret]
        exact herror _
    | true =>
      change wp (if (outcome.mkpath (getParentDir dirpath) mode true).1 ≠ 0 then _ else _) _ _ k
      refine wp_ite.mpr ⟨fun _ => herror _,fun _ => ?_⟩
      cases outcome.create with
      | none => exact hok
      | some errno => exact herror errno

/-! ### What the proxy passes on -/

/-- Of `whole`, `rest` is still to come from the server, and `pend` has been read but not been
passed on. -/
structure Relay (whole next : Str) (p : Proxy) (pend rest : Str) : Prop where
  remote : p.rcl.inp = rest
  remote_open : p.rcl.closed = false
  localStream : Tells next p.cl p.cl.bytes
  bytes : p.cl.bytes ++ (pend ++ rest) = whole

section Relay

variable {whole pend rest : Str} {p : Proxy}

theorem relay_read {count : Nat} {s : Str} (h : Relay whole next p pend (s ++ rest))
    (hs : s.length = count) (hcount : 0 < count) :
    wp (rcl.readAllOrExit count) (fun s' p' => s' = s ∧ Relay whole next p' (pend ++ s) rest)
      (fun _ _ => False) p := by
  subst hs
  change wp (Proxy.rclPart.run (readAllOrExit s.length)) _ _ p
  have hopen : ¬ (p.rcl.closed = true ∨ p.rcl.inp.length < s.length) := by
    rw [h.remote,h.remote_open,List.length_append]
    simp
  rw [wp_run,readAllOrExit,wp_bind,wp_get]
  change wp (if _ then _ else if p.rcl.closed = true ∨ p.rcl.inp.length < s.length then _ else _) _ _
    p.rcl
  rw [if_neg (by omega),if_neg hopen,wp_bind,wp_set,wp_pure]
  change List.take s.length p.rcl.inp = s ∧ _
  rw [h.remote,List.take_left]
  refine ⟨rfl,?_,h.remote_open,h.localStream,?_⟩
  · change List.drop s.length p.rcl.inp = rest
    rw [h.remote,List.drop_left]
  · rw [List.append_assoc]
    exact h.bytes

theorem relay_number {width : Nat} {s : Str} (h : Relay whole next p pend (s ++ rest))
    (hs : s.length = width) (hwidth : 0 < width) :
    wp (fromLittleEndian <$> rcl.readAllOrExit width)
      (fun n p' => littleEndian width n = s ∧ n = fromLittleEndian s ∧
        Relay whole next p' (pend ++ s) rest)
      (fun _ _ => False) p := by
  rw [wp_map]
  refine wp_mono (relay_read h hs hwidth) (fun s' p' hs' => ?_) fun _ _ h => h
  obtain ⟨rfl,hp'⟩ := hs'
  exact ⟨hs ▸ littleEndian_fromLittleEndian _,rfl,hp'⟩

theorem relay_byte {b : Byte} (h : Relay whole next p pend (b :: rest)) :
    wp rcl.readU8 (fun b' p' => b' = b ∧ Relay whole next p' (pend ++ [b]) rest)
      (fun _ _ => False) p := by
  change wp (do
    let s ← rcl.readAllOrExit 1
    pure (s.headD 0)) _ _ p
  rw [wp_bind]
  refine wp_mono (relay_read (s := [b]) h rfl (by decide)) (fun s' p' hs' => ?_) fun _ _ h => h
  obtain ⟨rfl,hp'⟩ := hs'
  exact ⟨rfl,hp'⟩

theorem relay_write {c : Chunk} {bs : Str} (h : Relay whole next p (bs ++ pend) rest)
    (hc : c.encode = bs) :
    wp (cl.writeAllOrExit c) (fun _ p' => Relay whole next p' pend rest) (fun _ _ => False) p := by
  subst hc
  change wp (Proxy.clPart.run (writeAllOrExit c)) _ _ p
  rw [wp_run]
  refine wp_mono (prints_write c p.cl _ h.localStream) (fun _ k hk => ?_) fun _ _ h => h
  obtain ⟨hinp,hroom,hopen,hbytes⟩ := hk
  refine ⟨h.remote,h.remote_open,⟨hinp,hroom,hopen,rfl⟩,?_⟩
  have hwhole := h.bytes
  change k.bytes ++ (pend ++ rest) = whole
  rw [hbytes,List.append_assoc,← hwhole,List.append_assoc]

theorem relay_write_all {c : Chunk} {bs : Str} (h : Relay whole next p bs rest)
    (hc : c.encode = bs) :
    wp (cl.writeAllOrExit c) (fun _ p' => Relay whole next p' [] rest) (fun _ _ => False) p :=
  relay_write (by rw [List.append_nil]; exact h) hc

variable {creationStrategy : Byte}

theorem relay_error {resp : Byte} {errno : Str} (hresp : resp ≠ 0) (herrno : errno.length = 4)
    (h : Relay whole next p [] (resp :: (errno ++ rest))) :
    wp (client_createFileOrDirectory_response rq creationStrategy)
      (fun _ p' => Relay whole next p' [] rest) (fun _ _ => False) p := by
  rw [client_createFileOrDirectory_response,wp_bind]
  refine wp_mono (relay_byte h) (fun b p₁ hb => ?_) fun _ _ h => h
  obtain ⟨rfl,h₁⟩ := hb
  rw [if_pos hresp,wp_bind]
  refine wp_mono (relay_number h₁ herrno (by decide)) (fun n p₂ hn => ?_) fun _ _ h => h
  obtain ⟨hn,_,h₂⟩ := hn
  rw [wp_bind]
  refine wp_mono (relay_write h₂ rfl) (fun _ p₃ h₃ => ?_) fun _ _ h => h
  exact relay_write_all h₃ hn

theorem relay_ok (h : Relay whole next p [] (RESPONSE_OK :: rest))
    {Q : Unit → Proxy → Prop} {E : Stop → Proxy → Prop}
    (hQ : ∀ p', Relay whole next p' [] rest → wp (if b0 rq.flags && b1 rq.flags then do
        let p ← get
        passProgress (p.rcl.inp.length + 1)
        if bit creationStrategy 1 && bit creationStrategy 3 then do
          let outputHash ← cl.readStringWithLen
          brcl.writeStringWithLen outputHash
        else pure ()
      else pure ()) Q E p') :
    wp (client_createFileOrDirectory_response rq creationStrategy) Q E p := by
  rw [client_createFileOrDirectory_response,wp_bind]
  refine wp_mono (relay_byte h) (fun b p₁ hb => ?_) fun _ _ h => h.elim
  obtain ⟨rfl,h₁⟩ := hb
  rw [if_neg (by decide),wp_bind]
  exact wp_mono (relay_write_all h₁ rfl) (fun _ p₂ h₂ => hQ p₂ h₂) fun _ _ h => h.elim

theorem relay_progress {ns : List Nat} {turns : Nat} (hns : ∀ n ∈ ns, n < maxuint)
    (hturns : ns.length < turns)
    (h : Relay whole next p [] (progressBytes ns ++ (littleEndian 8 maxuint ++ rest))) :
    wp (passProgress turns) (fun _ p' => Relay whole next p' [] rest) (fun _ _ => False) p := by
  induction ns generalizing turns p with
  | nil =>
    cases turns with
    | zero => simp at hturns
    | succ turns =>
      rw [progressBytes,List.flatMap_nil,List.nil_append] at h
      rw [passProgress,wp_bind]
      refine wp_mono (relay_number h (length_littleEndian 8 _) (by decide)) (fun n p₁ hn => ?_)
        fun _ _ h => h
      obtain ⟨hn,hvalue,h₁⟩ := hn
      rw [wp_bind]
      rw [fromLittleEndian_littleEndian] at hvalue
      refine wp_mono (relay_write_all h₁ hn) (fun _ p₂ h₂ => ?_) fun _ _ h => h
      rw [if_pos (by rw [hvalue]; decide)]
      exact h₂
  | cons m ns ih =>
    have hm := hns m List.mem_cons_self
    cases turns with
    | zero => simp at hturns
    | succ turns =>
      rw [progressBytes,List.flatMap_cons,List.append_assoc] at h
      rw [passProgress,wp_bind]
      refine wp_mono (relay_number h (length_littleEndian 8 _) (by decide)) (fun n p₁ hn => ?_)
        fun _ _ h => h
      obtain ⟨hn,hvalue,h₁⟩ := hn
      rw [fromLittleEndian_littleEndian,Nat.mod_eq_of_lt (by unfold maxuint at hm; omega)] at hvalue
      rw [wp_bind]
      refine wp_mono (relay_write_all h₁ hn) (fun _ p₂ h₂ => ?_) fun _ _ h => h
      rw [if_neg (by omega)]
      exact ih (fun n hn => hns n (List.mem_cons_of_mem _ hn)) (by simpa using hturns) h₂

/-- The progress is passed on; for a hash the proxy then turns to the local client. -/
theorem relay_made {ns : List Nat} (hflags : (b0 rq.flags && b1 rq.flags) = true)
    (hns : ∀ n ∈ ns, n < maxuint)
    (h : Relay whole next p [] (RESPONSE_OK :: (progressBytes ns ++ (littleEndian 8 maxuint ++ rest)))) :
    wp (client_createFileOrDirectory_response rq o.creationStrategy)
      (fun _ p' => p'.rcl.inp = rest ∧ (o.hashed = false → Relay whole next p' [] rest))
      (fun _ _ => o.hashed = true) p := by
  refine relay_ok h fun p₁ h₁ => ?_
  rw [if_pos hflags,wp_bind,wp_get,wp_bind]
  have hturns : ns.length < p₁.rcl.inp.length + 1 := by
    have hbytes : ∀ l : List Nat, l.length ≤ (progressBytes l).length := fun l => by
      induction l with
      | nil => exact Nat.le_refl _
      | cons n l ih => simp [progressBytes] at ih ⊢; omega
    rw [h₁.remote,List.length_append]
    have hle := hbytes ns
    omega
  refine wp_mono (relay_progress hns hturns h₁) (fun _ p₂ h₂ => ?_) fun _ _ h => h.elim
  change wp (if o.hashed = true then _ else _) _ _ p₂
  cases hhashed : o.hashed with
  | false =>
    rw [if_neg Bool.false_ne_true]
    exact ⟨h₂.remote,fun _ => h₂⟩
  | true =>
    rw [if_pos rfl,wp_bind]
    refine wp_mono (adds_cl_string p₂) (fun s p₃ h₃ => ?_) fun _ _ _ => rfl
    obtain ⟨_,_,hrcl,_⟩ := h₃
    refine ⟨?_,fun hno => by simp at hno⟩
    change p₃.rcl.inp = rest
    rw [hrcl,h₂.remote]

end Relay

/-! ### The exchange -/

/-- An exchange is known by what the server makes of the request and the proxy of the answer. -/
theorem wp_exchange (outcome : CreateOutcome) (access : Str → Bool) (next : Str)
    (hfits : (Sent.create dirpath mode options).Fits rq) {Q : Conn → Prop}
    {R : Proxy → Conn → Prop} {F : Prop}
    (hserver : wp (creation_response outcome dirpath mode
        (creationOf (access dirpath) rq.flags options)) (fun _ k => Q k) (fun _ _ => F)
          ⟨unread (access dirpath) options,[],none,false⟩)
    (hclient : ∀ p k, Q k → Relay k.bytes next p [] k.bytes →
      wp (client_createFileOrDirectory_response rq (Sent.create dirpath mode options).creationStrategy)
        (fun _ p' => R p' k) (fun _ _ => F) p) :
    (exchange outcome access rq (localClient ((Sent.create dirpath mode options).body ++ next)) = none
        ∧ F) ∨
      ∃ p k, exchange outcome access rq
        (localClient ((Sent.create dirpath mode options).body ++ next)) = some (p,k) ∧ Q k ∧ R p k := by
  obtain ⟨p,hrun,hcl,hopen,hbytes⟩ := creation_request_passes next hfits
  have hserver' := serveCreation_reads hfits hserver
  have hstrategy : (Sent.create dirpath mode (options.map (·.sent))).creationStrategy =
      (Sent.create dirpath mode options).creationStrategy := by
    cases options <;> rfl
  unfold exchange
  simp only [hrun,hbytes,hstrategy]
  unfold wp at hserver'
  cases hserve : serveCreation outcome access
      ⟨rq.byte :: (Sent.create dirpath mode options).body,[],none,false⟩ with
  | error e k =>
    rw [hserve] at hserver'
    exact .inl ⟨rfl,hserver'⟩
  | ok a k =>
    rw [hserve] at hserver'
    simp only
    have hready : Relay k.bytes next { p with rcl := { p.rcl with inp := k.bytes } } [] k.bytes := by
      refine ⟨rfl,hopen,?_,?_⟩
      · simp only
        rw [hcl]
        exact ⟨rfl,rfl,rfl,rfl⟩
      · simp only
        rw [hcl]
        rfl
    have hclient' := hclient _ k hserver' hready
    unfold wp at hclient'
    cases hresponse : client_createFileOrDirectory_response rq
        (Sent.create dirpath mode options).creationStrategy
        { p with rcl := { p.rcl with inp := k.bytes } } with
    | error e p' =>
      rw [hresponse] at hclient'
      exact .inl ⟨rfl,hclient'⟩
    | ok b p' =>
      rw [hresponse] at hclient'
      exact .inr ⟨p',k,rfl,hserver',hclient'⟩

theorem Relay.aligned {p : Proxy} {k : Conn} (h : Relay k.bytes next p [] []) (hk : k.inp = []) :
    Aligned next p k :=
  ⟨hk,h.remote,h.localStream.1,by simpa using h.bytes⟩

theorem unread_eq_nil : unread false (some o) = [] ↔ ¬ (o.ambiguous ∧ o.strings ≠ []) := by
  cases h : o.ambiguous <;> simp [unread,h]

theorem strings_eq_nil (hambiguous : o.ambiguous = true) (hhashed : o.hashed = false) :
    o.strings = [] ↔ ¬ (bit o.creationStrategy 2 ∨ bit o.creationStrategy 4) := by
  have hrandom : bit o.creationStrategy 1 = true := by
    unfold CreateOptions.ambiguous at hambiguous
    simp only [Bool.and_eq_true] at hambiguous
    exact hambiguous.2
  have hhash : bit o.creationStrategy 3 = false := by
    simpa [CreateOptions.hashed,hrandom] using hhashed
  simp only [CreateOptions.strings,optionBytes,stringBytes,hrandom,hhash,Bool.true_and]
  cases bit o.creationStrategy 2 <;> cases bit o.creationStrategy 4 <;> simp [littleEndian]

theorem plain_aligned (hfits : (Sent.create dirpath mode none).Fits rq) :
    ∃ p k, exchange outcome access rq
      (localClient ((Sent.create dirpath mode none).body ++ next)) = some (p,k) ∧ Aligned next p k := by
  have hflags : ¬ (b0 rq.flags && b1 rq.flags) = true := by simpa using hfits.2.2.2.1
  have hex := wp_exchange outcome access next hfits
    (R := fun p k => Relay k.bytes next p [] []) (creation_plain _ _ ⟨rfl,rfl,rfl,rfl⟩)
    fun p k hk hp => ?_
  · rcases hex with ⟨_,hno⟩ | ⟨p,k,hex,hk,hp⟩
    · exact hno.elim
    · refine ⟨p,k,hex,hp.aligned ?_⟩
      rcases hk with hk | ⟨_,hk⟩
      · exact hk.1
      · exact hk.1
  · rcases hk with hk | ⟨errno,hk⟩
    · rw [hk.2.2.2] at hp ⊢
      refine relay_ok hp fun p' hp' => ?_
      rw [if_neg hflags]
      exact hp'
    · rw [hk.2.2.2] at hp ⊢
      rw [← List.append_nil (littleEndian 4 errno)] at hp
      exact relay_error (by decide) (length_littleEndian 4 errno) hp

section Options

variable (hfits : (Sent.create dirpath mode (some o)).Fits rq)

include hfits

theorem denied_not_aligned (hdenied : access dirpath = true) {p : Proxy} {k : Conn}
    (hex : exchange outcome access rq
      (localClient ((Sent.create dirpath mode (some o)).body ++ next)) = some (p,k)) :
    ¬ Aligned next p k := by
  intro h
  have hserver : wp (creation_response outcome dirpath mode
      (creationOf (access dirpath) rq.flags (some o)))
      (fun _ k => k.inp = unread true (some o)) (fun _ _ => True)
      ⟨unread (access dirpath) (some o),[],none,false⟩ := by
    rw [hdenied]
    refine wp_mono (creation_plain true rq.flags ⟨rfl,rfl,rfl,rfl⟩)
      (fun _ k hk => ?_) fun _ _ h => h.elim
    rcases hk with hk | ⟨_,hk⟩
    · exact hk.1
    · exact hk.1
  obtain ⟨hno,_⟩ | ⟨p',k',hex',hk,_⟩ := wp_exchange outcome access next hfits (R := fun _ _ => True)
    (F := True) hserver fun _ _ _ _ => wp_trivial (fun _ _ => trivial) fun _ _ => trivial
  · rw [hno] at hex
    cases hex
  · rw [hex] at hex'
    cases hex'
    rw [h.server] at hk
    simp [unread,CreateOptions.bytes] at hk

/-- The file is not made: the end marker is still to come for the proxy. -/
theorem failed_not_aligned (hgranted : access dirpath = false) (hnot : ¬ o.Made outcome)
    {p : Proxy} {k : Conn}
    (hex : exchange outcome access rq
      (localClient ((Sent.create dirpath mode (some o)).body ++ next)) = some (p,k)) :
    ¬ Aligned next p k := by
  intro h
  have hflags : b0 rq.flags = true ∧ b1 rq.flags = true := by simpa using hfits.2.2.2.1
  have hcreation : creationOf (access dirpath) rq.flags (some o) = advanced o := by
    rw [hgranted,creationOf_granted hflags.1]
  obtain ⟨hno,_⟩ | ⟨p',k',hex',_,hp⟩ := wp_exchange outcome access next hfits (F := True)
    (R := fun p _ => p.rcl.inp ≠ []) (by rw [hcreation]; exact creation_fails hnot ⟨rfl,rfl,rfl,rfl⟩)
    fun p k hk hp => by
      obtain ⟨resp,errno,rest,hresp,herrno,hrest,hk⟩ := hk
      rw [hk.2.2.2] at hp
      refine wp_mono (relay_error hresp herrno hp) (fun _ p' hp' => ?_) fun _ _ h => h.elim
      rw [hp'.remote]
      exact hrest
  · rw [hno] at hex
    cases hex
  · rw [hex] at hex'
    cases hex'
    exact hp h.remote

theorem made_aligned_iff (hgranted : access dirpath = false) (hmade : o.Made outcome) :
    (∃ p k, exchange outcome access rq
        (localClient ((Sent.create dirpath mode (some o)).body ++ next)) = some (p,k) ∧
      Aligned next p k) ↔ o.hashed = false ∧ unread false (some o) = [] := by
  have hflags : b0 rq.flags = true ∧ b1 rq.flags = true := by simpa using hfits.2.2.2.1
  have hcreation : creationOf (access dirpath) rq.flags (some o) = advanced o := by
    rw [hgranted,creationOf_granted hflags.1]
  have hex := wp_exchange outcome access next hfits (F := o.hashed = true)
    (R := fun p k => (p.rcl.inp = [] ↔ o.hashed = false) ∧ k.inp = unread false (some o) ∧
      (o.hashed = false → Relay k.bytes next p [] []))
    (by rw [hcreation,hgranted]; exact creation_made hmade ⟨rfl,rfl,rfl,rfl⟩) fun p k hk hp => by
      obtain ⟨ns,tail,hns,hk,htail⟩ := hk
      rw [hk.2.2.2] at hp ⊢
      refine wp_mono (relay_made (o := o) (by simp [hflags]) hns hp) (fun _ p' hp' => ?_)
        fun _ _ h => h
      refine ⟨by rw [hp'.1]; exact htail,hk.1,fun hhashed => ?_⟩
      have hnone := htail.mpr hhashed
      subst hnone
      exact hp'.2 hhashed
  rcases hex with ⟨hno,hhashed⟩ | ⟨p,k,hex,_,hremote,hserver,hrelay⟩
  · refine iff_of_false (fun ⟨p,k,hex,_⟩ => ?_) fun h => ?_
    · rw [hno] at hex
      cases hex
    · rw [hhashed] at h
      exact Bool.noConfusion h.1
  · refine ⟨fun h => ?_,fun h => ⟨p,k,hex,(hrelay h.1).aligned (hserver.trans h.2)⟩⟩
    obtain ⟨p',k',hex',h⟩ := h
    rw [hex] at hex'
    cases hex'
    exact ⟨hremote.mp h.remote,hserver.symm.trans h.server⟩

end Options

/-- The streams are aligned after the exchange just when no options are sent, or access is granted,
the file is made with all its content, no hash is asked for, and no string is sent with content of
zeros. -/
theorem exchange_aligned_iff (hfits : (Sent.create dirpath mode options).Fits rq) :
    (∃ p k, exchange outcome access rq
        (localClient ((Sent.create dirpath mode options).body ++ next)) = some (p,k) ∧
      Aligned next p k) ↔
    ∀ o ∈ options, access dirpath = false ∧ o.Made outcome ∧ o.hashed = false ∧
      ¬ (o.ambiguous ∧ (bit o.creationStrategy 2 ∨ bit o.creationStrategy 4)) := by
  cases options with
  | none => exact iff_of_true (plain_aligned hfits) (by simp)
  | some o =>
    simp only [Option.mem_some_iff,forall_eq']
    cases hdenied : access dirpath with
    | true =>
      exact iff_of_false (fun ⟨p,k,hex,h⟩ => denied_not_aligned hfits hdenied hex h) (by simp)
    | false =>
      by_cases hmade : o.Made outcome
      · rw [made_aligned_iff hfits hdenied hmade,unread_eq_nil]
        simp only [hmade,true_and]
        refine and_congr_right fun hhashed => not_congr (and_congr_right fun hambiguous => ?_)
        rw [ne_eq,strings_eq_nil hambiguous hhashed,not_not]
      · exact iff_of_false (fun ⟨p,k,hex,h⟩ => failed_not_aligned hfits hdenied hmade hex h)
          (fun h => hmade h.2.1)

/-- A system on which everything goes well, with one look at the progress after each chunk. -/
def fairOutcome : CreateOutcome where
  mkpath _ _ _ := (0,0)
  create := none
  takes _ := true
  ticks _ := 1
  digest := [65,66]

/-- The request byte of a creation with options. -/
def createRequest : request_type := ⟨ACTION_CREATE,3⟩

/-- The file "/a" with three bytes. -/
def threeBytes (creationStrategy : Byte) (outputHashType : Str) : Option CreateOptions :=
  some ⟨creationStrategy,3,[],outputHashType,[]⟩

theorem exchange_aligned_zeros : ∃ p k,
    exchange fairOutcome (fun _ => false) createRequest
      (localClient ((Sent.create [47,97] 420 (threeBytes 1 [])).body ++ [9])) = some (p,k) ∧
    Aligned [9] p k := by
  have hfits : (Sent.create [47,97] 420 (threeBytes 1 [])).Fits createRequest :=
    ⟨rfl,by decide,by decide,by decide,fun o ho => by
      obtain rfl := Option.some.inj ho
      exact ⟨by decide,by decide,by decide,by decide⟩⟩
  refine (exchange_aligned_iff hfits).mpr fun o ho => ?_
  obtain rfl := Option.some.inj ho
  exact ⟨rfl,⟨.inl (by decide),rfl,fun _ _ => rfl⟩,by decide,by decide⟩

/-- The hash is left unread by the proxy, which takes the next request for it; so is the end marker
when the file cannot be created, and by the server the options of a request that is denied. -/
theorem exchange_leaves_bytes :
    (∃ r ∈ exchange fairOutcome (fun _ => false) createRequest
        (localClient ((Sent.create [47,97] 420 (threeBytes 10 [77,68,53])).body ++ [0,0])),
      r.1.rcl.inp = [2,0,65,66] ∧ r.1.cl.inp = [] ∧ ¬ Aligned [0,0] r.1 r.2) ∧
    (∃ r ∈ exchange { fairOutcome with create := some 17 } (fun _ => false) createRequest
        (localClient (Sent.create [47,97] 420 (threeBytes 1 [])).body),
      r.1.rcl.inp = littleEndian 8 maxuint ∧ ¬ Aligned [] r.1 r.2) ∧
    ∃ r ∈ exchange fairOutcome (fun _ => true) createRequest
        (localClient (Sent.create [47,97] 420 (threeBytes 1 [])).body),
      r.2.inp = 1 :: littleEndian 8 3 ∧ ¬ Aligned [] r.1 r.2 := by
  decide +kernel

end RootHelper
