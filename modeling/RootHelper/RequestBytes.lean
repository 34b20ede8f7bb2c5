import RootHelper.Requests
import RootHelper.RoundTrips

/-!
The bytes of each request: what the proxies put into their buffer and send, and what the handlers
make of it.
-/

set_option autoImplicit false

namespace RootHelper
open Posix Control

variable {ε σ : Type}

def optionBytes (given : Bool) (s : Str) : Str := if given then stringBytes s else []

def CreateOptions.bytes (o : CreateOptions) : Str :=
  let random := bit o.creationStrategy 1
  [o.creationStrategy] ++ (littleEndian 8 o.filesize ++
    (optionBytes (random && bit o.creationStrategy 2) o.prngSeed ++
      (optionBytes (random && bit o.creationStrategy 3) o.outputHashType ++
        optionBytes (random && bit o.creationStrategy 4) o.backendCipher)))

/-- What follows the request byte. -/
def Sent.body : Sent → Str
  | ls dirpath | stats dirpath => stringBytes dirpath
  | create dirpath mode options =>
    stringBytes dirpath ++ (littleEndian 4 mode ++ options.elim [] CreateOptions.bytes)
  | link v => if v.1 = [] then littleEndian 4 0 else pairBytes v
  | hash algorithm dirHashOpts filepath => [algorithm] ++ ([dirHashOpts] ++ stringBytes filepath)

def CreateOptions.Fits (o : CreateOptions) : Prop :=
  o.filesize < 2^64 ∧ o.prngSeed.length < 65536 ∧ o.outputHashType.length < 65536 ∧
    o.backendCipher.length < 65536

/-- What was read from the local client has the sizes of its formats. -/
def Sent.Fits (rq : request_type) : Sent → Prop
  | ls dirpath => rq.request = ACTION_LS ∧ dirpath.length < 65536
  | stats dirpath => rq.request = ACTION_STATS ∧ dirpath.length < 65536
  | create dirpath mode options => rq.request = ACTION_CREATE ∧ dirpath.length < 65536 ∧
      mode < 2^32 ∧ (options.isSome ↔ b0 rq.flags && b1 rq.flags) ∧ ∀ o ∈ options, o.Fits
  | link v => rq.request = ACTION_LINK ∧ v.1.length < 65536 ∧ v.2.length < 65536 ∧
      (v.1 = [] → v.2 = [])
  | hash algorithm _ filepath => rq.request = ACTION_HASH ∧
      algorithm.toNat < rh_hash_maxAlgoIndex ∧ filepath.length < 65536

/-- `x` only reads from the local client and puts bytes into the buffer, as `P` has it. -/
def Adds {α : Type} (P : α → Str → Prop) (x : ProxyM α) : Prop := ∀ p : Proxy,
  wp x (fun a p' => ∃ bs, P a bs ∧ p'.rcl = p.rcl ∧ p'.buffer = p.buffer ++ bs) (fun _ _ => True) p

section Adding

variable {α β : Type} {P : α → Str → Prop} {Q : β → Str → Prop} {x : ProxyM α}

theorem adds_pure {a : α} (h : P a []) : Adds P (pure a) := fun _ =>
  ⟨[],h,rfl,(List.append_nil _).symm⟩

theorem Adds.bind {f : α → ProxyM β} (hx : Adds P x)
    (hf : ∀ a bs, P a bs → Adds (fun b cs => Q b (bs ++ cs)) (f a)) : Adds Q (x >>= f) := by
  intro p
  rw [wp_bind]
  refine wp_mono (hx p) (fun a p' ha => ?_) fun _ _ _ => trivial
  obtain ⟨bs,hP,hrcl,hbuf⟩ := ha
  refine wp_mono (hf a bs hP p') (fun b p'' hb => ?_) fun _ _ _ => trivial
  obtain ⟨cs,hQ,hrcl',hbuf'⟩ := hb
  exact ⟨bs ++ cs,hQ,hrcl'.trans hrcl,by rw [hbuf',hbuf,List.append_assoc]⟩

theorem Adds.map {f : α → β} (hx : Adds P x) (hf : ∀ a bs, P a bs → Q (f a) bs) :
    Adds Q (f <$> x) := by
  intro p
  rw [wp_map]
  refine wp_mono (hx p) (fun a p' ha => ?_) fun _ _ _ => trivial
  obtain ⟨bs,hP,hrest⟩ := ha
  exact ⟨bs,hf a bs hP,hrest⟩

theorem adds_cl (count : Nat) : Adds (fun s bs => s.length = count ∧ bs = [])
    (cl.readAllOrExit count) := by
  intro p
  change wp (Proxy.clPart.run (readAllOrExit count)) _ _ p
  rw [wp_run]
  simp only [readAllOrExit,wp_bind,wp_get,wp_ite,wp_pure,wp_set,wp_throw]
  refine ⟨fun h0 => ?_,fun _ => ⟨fun _ => trivial,fun h => ?_⟩⟩
  · exact ⟨[],⟨by rw [h0]; rfl,rfl⟩,rfl,(List.append_nil _).symm⟩
  · refine ⟨[],⟨?_,rfl⟩,rfl,(List.append_nil _).symm⟩
    rw [List.length_take]
    omega

theorem adds_cl_u8 : Adds (fun _ bs => bs = []) cl.readU8 :=
  (adds_cl 1).bind fun _ _ h => adds_pure (by rw [h.2]; rfl)

theorem fromLittleEndian_lt (s : Str) : fromLittleEndian s < 256^s.length := by
  induction s with
  | nil => simp [fromLittleEndian]
  | cons b s ih =>
    have hb := b.toNat_lt
    rw [fromLittleEndian,List.length_cons,Nat.pow_succ]
    omega

theorem adds_cl_number (width : Nat) : Adds (fun n bs => n < 256^width ∧ bs = [])
    (fromLittleEndian <$> cl.readAllOrExit width) :=
  (adds_cl width).map fun s _ h => ⟨h.1 ▸ fromLittleEndian_lt s,h.2⟩

theorem adds_cl_string : Adds (fun s bs => s.length < 65536 ∧ bs = []) cl.readStringWithLen := by
  refine (adds_cl_number 2).bind fun len bs h => ?_
  obtain ⟨hlen,rfl⟩ := h
  split
  · exact adds_pure ⟨by decide,rfl⟩
  · have hread := adds_cl len
    intro p
    refine wp_mono (hread p) (fun s p' hs => ?_) fun _ _ _ => trivial
    obtain ⟨bs,⟨hs,rfl⟩,hrest⟩ := hs
    exact ⟨[],⟨hs ▸ hlen,rfl⟩,hrest⟩

theorem adds_cl_pair : Adds (fun v bs => (v.1.length < 65536 ∧ v.2.length < 65536 ∧
    (v.1 = [] → v.2 = [])) ∧ bs = []) cl.readPairOfStringsWithPairOfLens := by
  refine (adds_cl_number 2).bind fun len₀ bs h => ?_
  obtain ⟨hlen₀,rfl⟩ := h
  refine (adds_cl_number 2).bind fun len₁ bs h => ?_
  obtain ⟨hlen₁,rfl⟩ := h
  split
  · exact adds_pure ⟨⟨by decide,by decide,fun _ => rfl⟩,rfl⟩
  · rename_i hne
    refine (adds_cl len₀).bind fun s bs h => ?_
    obtain ⟨hs,rfl⟩ := h
    refine (adds_cl len₁).bind fun t bs h => ?_
    obtain ⟨ht,rfl⟩ := h
    refine adds_pure ⟨⟨hs ▸ hlen₀,ht ▸ hlen₁,fun hempty => ?_⟩,rfl⟩
    simp only at hempty
    exact absurd (by rw [← hs,hempty]; rfl) hne

theorem adds_of_prints {x : ProxyM Unit} {bs : Str}
    (h : ∀ k, Prints (fun (p : Proxy) cs => p.rcl = k ∧ p.buffer = cs) x bs) :
    Adds (fun _ cs => cs = bs) x := by
  intro p
  refine wp_mono (h p.rcl p p.buffer ⟨rfl,rfl⟩) (fun _ p' hp => ?_) fun _ _ h => h.elim
  exact ⟨bs,rfl,hp⟩

theorem brcl_writes (k : Conn) :
    brcl.Writes fun p cs => p.rcl = k ∧ p.buffer = cs := fun c p cs h =>
  ⟨h.1,by rw [← h.2]⟩

theorem adds_brcl (c : Chunk) : Adds (fun _ cs => cs = c.encode) (brcl.writeAllOrExit c) :=
  adds_of_prints fun k => brcl_writes k c

theorem adds_brcl_string {s : Str} (hs : s.length < 65536) :
    Adds (fun _ cs => cs = stringBytes s) (brcl.writeStringWithLen s) :=
  adds_of_prints fun k => prints_string (brcl_writes k) hs

theorem adds_passString (given : Bool) :
    Adds (fun s bs => s.length < 65536 ∧ bs = optionBytes given s) (passString given) := by
  unfold passString optionBytes
  cases given with
  | false => exact adds_pure ⟨by decide,rfl⟩
  | true =>
    refine adds_cl_string.bind fun s bs h => ?_
    obtain ⟨hs,rfl⟩ := h
    refine (adds_brcl_string hs).bind fun _ bs h => ?_
    subst h
    exact adds_pure ⟨hs,by simp⟩

theorem adds_passOptions : Adds (fun o bs => o.Fits ∧ bs = o.bytes) passOptions := by
  refine adds_cl_u8.bind fun creationStrategy bs h => ?_
  subst h
  refine (adds_cl_number 8).bind fun filesize bs h => ?_
  obtain ⟨hsize,rfl⟩ := h
  refine (adds_brcl _).bind fun _ bs h => ?_
  subst h
  refine (adds_brcl _).bind fun _ bs h => ?_
  subst h
  refine (adds_passString _).bind fun seed bs h => ?_
  obtain ⟨hseed,rfl⟩ := h
  refine (adds_passString _).bind fun hash bs h => ?_
  obtain ⟨hhash,rfl⟩ := h
  refine (adds_passString _).bind fun cipher bs h => ?_
  obtain ⟨hcipher,rfl⟩ := h
  exact adds_pure ⟨⟨hsize,hseed,hhash,hcipher⟩,by simp [CreateOptions.bytes,Chunk.encode]⟩

end Adding

/-- A buffer is sent in one write, an empty one not at all. -/
def flushed (k : Conn) (bs : Str) : Conn := if bs = [] then k else k.sent [.bytes bs]

/-- `x` sends the buffer and what it has added to it, as `P` has it. -/
def Sends {α : Type} (P : α → Str → Prop) (x : ProxyM α) : Prop := ∀ p : Proxy,
  wp x (fun a p' => ∃ bs, P a bs ∧ p'.rcl = flushed p.rcl (p.buffer ++ bs)) (fun _ _ => True) p

/-- `x` sends what it puts into a buffer of its own. -/
def SendsNew {α : Type} (P : α → Str → Prop) (x : ProxyM α) : Prop := ∀ p : Proxy,
  wp x (fun a p' => ∃ bs, P a bs ∧ p'.rcl = flushed p.rcl bs) (fun _ _ => True) p

section Sending

variable {α β : Type} {P : α → Str → Prop} {Q : β → Str → Prop} {x : ProxyM α} {f : α → ProxyM β}

theorem wp_rcl_bytes {Q : Unit → Proxy → Prop} {bs : Str} {p : Proxy} (hbs : bs ≠ [])
    (hQ : Q () { p with rcl := p.rcl.sent [.bytes bs] }) :
    wp (rcl.writeAllOrExit (.bytes bs)) Q (fun _ _ => True) p := by
  change wp (Proxy.rclPart.run (writeAllOrExit (.bytes bs))) _ _ p
  rw [wp_run,wp_writeAllOrExit_iff (c := .bytes bs) hbs]
  exact ⟨fun _ => hQ,fun _ => trivial⟩

theorem wp_cl_write {p : Proxy} (c : Chunk) :
    wp (cl.writeAllOrExit c) (fun _ p' => p'.rcl = p.rcl) (fun _ _ => True) p := by
  change wp (Proxy.clPart.run (writeAllOrExit c)) _ _ p
  rw [wp_run]
  exact wp_trivial (fun _ _ => rfl) fun _ _ => trivial

theorem sends_flush {a : α} (h : P a []) : Sends P (do flush; pure a) := by
  intro p
  rw [wp_bind,flush,wp_bind,wp_get]
  by_cases hempty : p.buffer = []
  · rw [if_pos hempty]
    exact ⟨[],h,by rw [List.append_nil,flushed,if_pos hempty]⟩
  · rw [if_neg hempty,wp_bind]
    refine wp_rcl_bytes hempty ?_
    exact ⟨[],h,by rw [List.append_nil,flushed,if_neg hempty]⟩

theorem Adds.sends (hx : Adds P x)
    (hf : ∀ a bs, P a bs → Sends (fun b cs => Q b (bs ++ cs)) (f a)) : Sends Q (x >>= f) := by
  intro p
  rw [wp_bind]
  refine wp_mono (hx p) (fun a p' ha => ?_) fun _ _ _ => trivial
  obtain ⟨bs,hP,hrcl,hbuf⟩ := ha
  refine wp_mono (hf a bs hP p') (fun b p'' hb => ?_) fun _ _ _ => trivial
  obtain ⟨cs,hQ,hrcl'⟩ := hb
  exact ⟨bs ++ cs,hQ,by rw [hrcl',hrcl,hbuf,List.append_assoc]⟩

theorem Adds.sendsNew (hx : Adds P x) (hf : ∀ a bs, P a bs → SendsNew Q (f a)) :
    SendsNew Q (x >>= f) := by
  intro p
  rw [wp_bind]
  refine wp_mono (hx p) (fun a p' ha => ?_) fun _ _ _ => trivial
  obtain ⟨bs,hP,hrcl,_⟩ := ha
  refine wp_mono (hf a bs hP p') (fun b p'' hb => ?_) fun _ _ _ => trivial
  obtain ⟨cs,hQ,hrcl'⟩ := hb
  exact ⟨cs,hQ,by rw [hrcl',hrcl]⟩

theorem Sends.new (hx : Sends P x) : SendsNew P (do newBuffer; x) := by
  intro p
  rw [wp_bind,newBuffer,wp_modify]
  exact hx _

theorem SendsNew.map {g : α → β} (hx : SendsNew P x) (hg : ∀ a bs, P a bs → Q (g a) bs) :
    SendsNew Q (g <$> x) := by
  intro p
  rw [wp_map]
  refine wp_mono (hx p) (fun a p' ha => ?_) fun _ _ _ => trivial
  obtain ⟨bs,hP,hrcl⟩ := ha
  exact ⟨bs,hg a bs hP,hrcl⟩

end Sending

variable {rq : request_type}

/-- The request byte and the format of what was read. -/
def SentAs (rq : request_type) (f : Sent) (bs : Str) : Prop := f.Fits rq ∧ bs = rq.byte :: f.body

theorem ls_sends (hrq : rq.request = ACTION_LS) : SendsNew (SentAs rq) (client_ls_request rq) := by
  refine adds_cl_string.sendsNew fun dirpath bs h => ?_
  intro p
  simp only [Nat.mod_eq_of_lt h.1,List.take_length,wp_bind]
  refine wp_rcl_bytes (by simp) ?_
  refine ⟨rq.byte :: stringBytes dirpath,⟨⟨hrq,h.1⟩,rfl⟩,?_⟩
  rw [flushed,if_neg (by simp)]
  rfl

theorem stats_sends (hrq : rq.request = ACTION_STATS) :
    SendsNew (SentAs rq) (client_stats_request rq) := by
  refine adds_cl_string.sendsNew fun dirpath bs h => Sends.new ?_
  refine (adds_brcl _).sends fun _ bs hbs => ?_
  subst hbs
  refine (adds_brcl_string h.1).sends fun _ bs hbs => ?_
  subst hbs
  exact sends_flush ⟨⟨hrq,h.1⟩,by simp [Chunk.encode,Sent.body]⟩

theorem link_sends (hrq : rq.request = ACTION_LINK) :
    SendsNew (SentAs rq) (client_createHardOrSoftLink_request rq) := by
  refine adds_cl_pair.sendsNew fun v bs h => Sends.new ?_
  obtain ⟨hfst,hsnd,hempty⟩ := h.1
  refine (adds_brcl _).sends fun _ bs hbs => ?_
  subst hbs
  have hpair : Adds (fun _ cs => cs = (Sent.link v).body)
      (brcl.writePairOfStringsWithPairOfLens v) := by
    change Adds (fun _ cs => cs = if v.1 = [] then littleEndian 4 0 else pairBytes v) _
    by_cases hv : v.1 = []
    · rw [if_pos hv,Sink.writePairOfStringsWithPairOfLens,hv,hempty hv]
      refine (adds_brcl _).bind fun _ bs hbs => ?_
      subst hbs
      refine (adds_brcl _).bind fun _ bs hbs => ?_
      subst hbs
      exact adds_pure rfl
    · rw [if_neg hv]
      exact adds_of_prints fun k => prints_pair (brcl_writes k) hv ⟨hfst,hsnd⟩
  refine hpair.sends fun _ bs hbs => ?_
  subst hbs
  exact sends_flush ⟨⟨hrq,hfst,hsnd,hempty⟩,by simp [Chunk.encode]⟩

theorem create_sends (hrq : rq.request = ACTION_CREATE) :
    SendsNew (SentAs rq) (client_createFileOrDirectory_request rq) := by
  refine adds_cl_string.sendsNew fun dirpath bs hdir => ?_
  refine (adds_cl_number 4).sendsNew fun mode bs hmode => Sends.new ?_
  refine (adds_brcl _).sends fun _ bs hbs => ?_
  subst hbs
  refine (adds_brcl_string hdir.1).sends fun _ bs hbs => ?_
  subst hbs
  refine (adds_brcl _).sends fun _ bs hbs => ?_
  subst hbs
  have hoptions : Adds (fun (o : Option CreateOptions) cs =>
      ((o.isSome ↔ b0 rq.flags && b1 rq.flags) ∧ ∀ o' ∈ o, CreateOptions.Fits o') ∧
        cs = o.elim [] CreateOptions.bytes)
      (if b0 rq.flags && b1 rq.flags then some <$> passOptions else pure none) := by
    split
    · rename_i hflags
      refine adds_passOptions.map fun o bs h => ⟨⟨by simp [hflags],?_⟩,h.2⟩
      intro o' ho'
      exact Option.some.inj ho' ▸ h.1
    · rename_i hflags
      exact adds_pure ⟨⟨by simp [hflags],by simp⟩,rfl⟩
  refine hoptions.sends fun options bs h => ?_
  obtain ⟨⟨hsome,hfits⟩,rfl⟩ := h
  exact sends_flush ⟨⟨hrq,hdir.1,hmode.1,hsome,hfits⟩,by simp [Chunk.encode,Sent.body]⟩

theorem hash_sends (errno : Nat) (hrq : rq.request = ACTION_HASH) :
    SendsNew (fun r bs => ∀ f ∈ r, SentAs rq f bs) (client_hash_request errno rq) := by
  refine adds_cl_u8.sendsNew fun algorithm bs _ => ?_
  refine adds_cl_u8.sendsNew fun dirHashOpts bs _ => ?_
  split
  · intro p
    rw [wp_bind]
    refine wp_mono (Q := fun _ p' => p'.rcl = p.rcl) ?_ (fun _ p' hp' => ?_) fun _ _ h => h
    · rw [Sink.sendBaseResponse,if_neg (by decide),wp_bind]
      refine wp_mono (wp_cl_write _) (fun _ p' hp' => ?_) fun _ _ h => h
      exact hp' ▸ wp_cl_write _
    · exact ⟨[],by simp,by rw [hp',flushed,if_pos rfl]⟩
  · rename_i halg
    refine Sends.new ?_
    refine (adds_brcl _).sends fun _ bs hbs => ?_
    subst hbs
    refine (adds_brcl _).sends fun _ bs hbs => ?_
    subst hbs
    refine (adds_brcl _).sends fun _ bs hbs => ?_
    subst hbs
    refine adds_cl_string.sends fun filepath bs h => ?_
    obtain ⟨hpath,rfl⟩ := h
    refine (adds_brcl_string hpath).sends fun _ bs hbs => ?_
    subst hbs
    refine sends_flush fun f hf => ?_
    obtain rfl := Option.some.inj hf
    exact ⟨⟨hrq,by omega,hpath⟩,by simp [Chunk.encode,Sent.body]⟩

/-- Whatever the local client sends: a request that gets sent has the bytes of its format. -/
theorem client_request_sends (errno : Nat) (rq : request_type) :
    SendsNew (fun r bs => ∀ f ∈ r, SentAs rq f bs) (client_request errno rq) := by
  have one : ∀ {x : ProxyM Sent}, SendsNew (SentAs rq) x →
      SendsNew (fun r bs => ∀ f ∈ r, SentAs rq f bs) (some <$> x) := fun hx =>
    hx.map fun f bs h f' hf' => Option.some.inj hf' ▸ h
  unfold client_request
  split
  · rename_i h
    exact one (ls_sends h)
  split
  · rename_i h
    exact one (create_sends h)
  split
  · rename_i h
    exact one (link_sends h)
  split
  · rename_i h
    exact one (stats_sends h)
  split
  · rename_i h
    exact hash_sends errno h
  · exact fun p => ⟨[],by simp,by rw [flushed,if_pos rfl]⟩

section Receiving

variable {src : Source ε σ} {at_ : σ → Str → Prop} {access : Str → Bool} {turns : Nat}

/-- The strings are there but not read: content of zeros is asked for as well. -/
def CreateOptions.ambiguous (o : CreateOptions) : Bool :=
  bit o.creationStrategy 0 && bit o.creationStrategy 1

/-- What the server makes of a creation. -/
def creationOf (denied : Bool) (flags : Nat) (options : Option CreateOptions) : Creation :=
  if denied then .denied
  else if b0 flags then
    match options with
    | none => .file
    | some o =>
      let read (n : Nat) (s : Str) := if !bit o.creationStrategy 0 && bit o.creationStrategy 1 &&
        bit o.creationStrategy n then s else []
      .advanced o.creationStrategy o.filesize (read 2 o.prngSeed) (read 3 o.outputHashType)
        (read 4 o.backendCipher)
  else .directory

def CreateOptions.strings (o : CreateOptions) : Str :=
  let random := bit o.creationStrategy 1
  optionBytes (random && bit o.creationStrategy 2) o.prngSeed ++
    (optionBytes (random && bit o.creationStrategy 3) o.outputHashType ++
      optionBytes (random && bit o.creationStrategy 4) o.backendCipher)

/-- What the server leaves of the options. -/
def unread (denied : Bool) (options : Option CreateOptions) : Str :=
  match options with
  | none => []
  | some o => if denied then o.bytes else if o.ambiguous then o.strings else []

theorem parses_requestType (h : src.ReadsSome at_) (rq : request_type) :
    Parses at_ (request_type.ofByte <$> src.readU8) [rq.byte] rq := by
  have hread := (parses_u8 h rq.byte).map request_type.ofByte
  rwa [request_type.ofByte_byte] at hread

theorem parses_stringIf (h : src.ReadsSome at_) {given : Bool} {s : Str} (hs : s.length < 65536) :
    Parses at_ (readStringIf src given) (optionBytes given s) (if given then s else []) := by
  unfold readStringIf optionBytes
  cases given with
  | false => exact parses_pure []
  | true => exact parses_string h hs

theorem parses_creation (h : src.ReadsSome at_) (denied : Bool) {flags : Nat}
    {options : Option CreateOptions} (hsome : options.isSome ↔ b0 flags && b1 flags)
    (hfits : ∀ o ∈ options, o.Fits) :
    ∃ bs, options.elim [] CreateOptions.bytes = bs ++ unread denied options ∧
      Parses at_ (creation_request src denied flags) bs (creationOf denied flags options) := by
  unfold creation_request creationOf
  cases hd : denied with
  | true =>
    refine ⟨[],?_,parses_pure _⟩
    cases options <;> rfl
  | false =>
    cases options with
    | none =>
      refine ⟨[],rfl,?_⟩
      cases h0 : b0 flags with
      | false => exact parses_pure _
      | true =>
        have h1 : b1 flags = false := by simpa [h0] using hsome
        rw [h1]
        exact parses_pure _
    | some o =>
      obtain ⟨h0,h1⟩ : b0 flags = true ∧ b1 flags = true := by simpa using hsome
      obtain ⟨hsize,hseed,hhash,hcipher⟩ := hfits o rfl
      rw [h0,h1]
      simp only [↓reduceIte,Bool.false_eq_true]
      -- the server reads the strings only when the lowest bit is not set
      refine ⟨[o.creationStrategy] ++ (littleEndian 8 o.filesize ++
        if o.ambiguous then [] else o.strings),?_,?_⟩
      · simp only [Option.elim,CreateOptions.bytes,unread,CreateOptions.strings]
        cases o.ambiguous <;> simp
      · refine (parses_u8 h _).bind ((parses_u64 h hsize).bind ?_)
        cases hzeros : bit o.creationStrategy 0 with
        | true =>
          have hnone : (if o.ambiguous then [] else o.strings) = [] := by
            unfold CreateOptions.ambiguous CreateOptions.strings
            rw [hzeros]
            cases bit o.creationStrategy 1 <;> rfl
          rw [hnone]
          exact parses_pure _
        | false =>
          have hall : (if o.ambiguous then [] else o.strings) = o.strings := by
            simp [CreateOptions.ambiguous,hzeros]
          rw [hall]
          refine (parses_stringIf h hseed).bind ((parses_stringIf h hhash).bind ?_)
          exact (parses_stringIf h hcipher).last fun cipher => Creation.advanced _ _ _ _ cipher

/-- The second string of a link is missing, or a multiple stats has a path: the handler goes on to
read what is not sent. -/
def Sent.Stalls (rq : request_type) : Sent → Prop
  | link v => v.1 ≠ [] ∧ v.2 = []
  | stats dirpath => b0 rq.flags = false ∧ b1 rq.flags = false ∧ b2 rq.flags = true ∧ dirpath ≠ []
  | _ => False

theorem parses_ls (h : src.ReadsSome at_) {rq : request_type} {dirpath : Str}
    (hrq : rq.request = ACTION_LS) (hlen : dirpath.length < 65536) :
    ∃ bs left r, rq.byte :: stringBytes dirpath = bs ++ left ∧
      Parses at_ (server_request src access turns) bs r := by
  by_cases h0 : rq.flags = 0
  · refine ⟨[rq.byte] ++ stringBytes dirpath,[],.listDir dirpath,by simp,?_⟩
    refine (parses_requestType h rq).bind ?_
    rw [if_pos hrq,if_pos h0]
    exact (parses_string h hlen).map _
  · by_cases h2 : rq.flags = 2
    · refine ⟨[rq.byte] ++ stringBytes dirpath,[],.retrieveHomePath dirpath,by simp,?_⟩
      refine (parses_requestType h rq).bind ?_
      rw [if_pos hrq,if_neg h0,if_pos h2]
      exact (parses_string h hlen).map _
    · refine ⟨[rq.byte] ++ [],stringBytes dirpath,.exits,rfl,?_⟩
      refine (parses_requestType h rq).bind ?_
      rw [if_pos hrq,if_neg h0,if_neg h2]
      exact parses_pure _

theorem parses_stats (h : src.ReadsSome at_) {flags : Nat} {dirpath : Str} (hturns : 0 < turns)
    (hlen : dirpath.length < 65536)
    (hgo : ¬ (b0 flags = false ∧ b1 flags = false ∧ b2 flags = true ∧ dirpath ≠ [])) :
    ∃ bs left r, stringBytes dirpath = bs ++ left ∧
      Parses at_ (stats_request src turns flags) bs r := by
  unfold stats_request
  have hstring := parses_string h hlen
  cases h0 : b0 flags with
  | true => exact ⟨_,[],_,(List.append_nil _).symm,hstring.map _⟩
  | false =>
    cases h1 : b1 flags with
    | true => exact ⟨_,[],_,(List.append_nil _).symm,hstring.map _⟩
    | false =>
      cases h2 : b2 flags with
      | false => exact ⟨[],stringBytes dirpath,_,rfl,parses_pure _⟩
      | true =>
        have hempty : dirpath = [] := by
          by_contra hne
          exact hgo ⟨h0,h1,h2,hne⟩
        subst hempty
        obtain ⟨turns,rfl⟩ := Nat.exists_eq_succ_of_ne_zero (Nat.ne_of_gt hturns)
        refine ⟨stringBytes [] ++ [],[],.stats_multiple [],by simp,?_⟩
        have hpaths : Parses at_ (stats_multiple_request src (turns+1)) (stringBytes [] ++ []) [] :=
          hstring.bind (parses_pure [])
        exact hpaths.map _

/-- What does not stall is read by its handler, which may leave some of it. -/
theorem server_request_parses (h : src.ReadsSome at_) {rq : request_type} {f : Sent}
    (hturns : 0 < turns) (hfits : f.Fits rq) (hgo : ¬ f.Stalls rq) :
    ∃ bs left r, rq.byte :: f.body = bs ++ left ∧
      Parses at_ (server_request src access turns) bs r := by
  have hrequest := parses_requestType h rq
  cases f with
  | ls dirpath => exact parses_ls h hfits.1 hfits.2
  | stats dirpath =>
    obtain ⟨hrq,hlen⟩ := hfits
    obtain ⟨bs,left,r,hbs,hparse⟩ := parses_stats h hturns hlen hgo
    refine ⟨[rq.byte] ++ bs,left,r,by simp [Sent.body,hbs],hrequest.bind ?_⟩
    rw [if_neg (by rw [hrq]; decide),if_neg (by rw [hrq]; decide),if_neg (by rw [hrq]; decide),
      if_pos hrq]
    exact hparse
  | create dirpath mode options =>
    obtain ⟨hrq,hdir,hmode,hsome,hopts⟩ := hfits
    obtain ⟨bs,hbs,hparse⟩ := parses_creation h (access dirpath) hsome hopts
    refine ⟨[rq.byte] ++ (stringBytes dirpath ++ (littleEndian 4 mode ++ bs)),
      unread (access dirpath) options,
      .createFileOrDirectory dirpath mode (creationOf (access dirpath) rq.flags options),?_,
      hrequest.bind ?_⟩
    · simp [Sent.body,hbs]
    · rw [if_neg (by rw [hrq]; decide),if_pos hrq]
      exact (parses_string h hdir).bind ((parses_u32 h hmode).bind (hparse.last fun creation =>
        Received.createFileOrDirectory dirpath mode creation))
  | link v =>
    obtain ⟨hrq,hfst,hsnd,_⟩ := hfits
    by_cases hv : v.1 = []
    · refine ⟨[rq.byte] ++ littleEndian 4 0,[],.createHardOrSoftLink ([],[]),?_,hrequest.bind ?_⟩
      · simp [Sent.body,hv]
      · rw [if_neg (by rw [hrq]; decide),if_neg (by rw [hrq]; decide),if_pos hrq]
        have len := parses_u16 h (n := 0) (by decide)
        have pair : Parses at_ src.readPairOfStringsWithPairOfLens (littleEndian 4 0) ([],[]) :=
          len.bind (len.bind (parses_pure ([],[])))
        exact pair.map _
    · have hsecond : v.2 ≠ [] := fun hempty => hgo ⟨hv,hempty⟩
      refine ⟨[rq.byte] ++ pairBytes v,[],.createHardOrSoftLink v,?_,hrequest.bind ?_⟩
      · simp [Sent.body,hv]
      · rw [if_neg (by rw [hrq]; decide),if_neg (by rw [hrq]; decide),if_pos hrq]
        exact (parses_pair h hv ⟨hfst,hsnd⟩ (h v.2 hsecond)).map _
  | hash algorithm dirHashOpts filepath =>
    obtain ⟨hrq,halg,hlen⟩ := hfits
    refine ⟨[rq.byte] ++ ([algorithm] ++ ([dirHashOpts] ++ stringBytes filepath)),[],
      .hashFile algorithm dirHashOpts (some filepath),by simp [Sent.body],hrequest.bind ?_⟩
    rw [if_neg (by rw [hrq]; decide),if_neg (by rw [hrq]; decide),if_neg (by rw [hrq]; decide),
      if_neg (by rw [hrq]; decide),if_pos hrq]
    refine (parses_u8 h algorithm).bind ((parses_u8 h dirHashOpts).bind ?_)
    rw [if_neg (by omega)]
    exact (parses_string h hlen).last fun path => Received.hashFile algorithm dirHashOpts (some path)

end Receiving

end RootHelper
