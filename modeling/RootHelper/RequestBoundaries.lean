import RootHelper.LocalSessions

/-!
What the requests of a local client take of the bytes it has written. A session stays at the
boundaries of the requests as long as none it serves is left unread in part.
-/

set_option autoImplicit false

namespace RootHelper
open Posix Control

/-- A descriptor that gives what has been written to it, also by single reads, and takes everything;
`unread` says what is left also when it has been closed. -/
structure Serving {ε σ : Type} (inOutDesc : LocalEnd ε σ) (at_ unread : σ → Str → Prop) : Prop where
  reads : inOutDesc.toSource.Reads at_
  read : ∀ b, Parses at_ (inOutDesc.read 1) [b] (1,[b])
  writes : ∀ c, Parses at_ (inOutDesc.writeAllOrExit c) [] ()
  stays : ∀ s bs, at_ s bs → unread s bs
  close : Consumes at_ unread inOutDesc.close []

section Readers

variable {ε σ : Type} {inOutDesc : LocalEnd ε σ} {at_ unread : σ → Str → Prop} {turns : Nat}

theorem parses_strings (h : inOutDesc.toSource.ReadsSome at_) {l : List Str}
    (hl : ∀ s ∈ l, s ≠ [] ∧ s.length < 65536) (hturns : l.length < turns) :
    Parses at_ (readStrings inOutDesc turns) (stringsBytes l) l := by
  induction l generalizing turns with
  | nil =>
    obtain ⟨turns,rfl⟩ := Nat.exists_eq_add_of_lt hturns
    exact (parses_string h (s := []) (by decide)).bind (parses_pure [])
  | cons v l ih =>
    obtain ⟨hne,hlen⟩ := hl v List.mem_cons_self
    cases turns with
    | zero => simp at hturns
    | succ turns =>
      rw [stringsBytes,List.flatMap_cons,List.append_assoc]
      refine (parses_string h hlen).bind ?_
      rw [if_neg hne]
      refine (ih (fun w hw => hl w (List.mem_cons_of_mem _ hw)) ?_).last fun l => v :: l
      simpa using hturns

theorem parses_findRequest (h : inOutDesc.toSource.ReadsSome at_) {rq : FindRequest}
    (hrq : rq.Fits turns) : Parses at_ (readFindRequest inOutDesc turns) rq.bytes rq := by
  obtain ⟨hflags,hturns,hpaths,hname,hcontent⟩ := hrq
  refine (parses_u16 h hflags).bind ((parses_strings h hpaths hturns).bind ?_)
  exact (parses_string h hname).bind ((parses_string h hcontent).last fun contentpattern =>
    FindRequest.mk rq.searchFlags rq.basePaths rq.namepattern contentpattern)

theorem parses_entries {α : Type} {entry : EStateM ε σ α} {bytes : α → Str} {l : List α}
    (h : ∀ a ∈ l, Parses at_ entry (bytes a) a) :
    Parses at_ (readEntries entry l.length) (l.flatMap bytes) l := by
  induction l with
  | nil => exact parses_pure []
  | cons a l ih =>
    rw [List.flatMap_cons]
    refine (h a List.mem_cons_self).bind ?_
    exact (ih fun b hb => h b (List.mem_cons_of_mem _ hb)).last fun l => a :: l

section Requests

variable (h : Serving inOutDesc at_ unread)

include h

theorem parses_options {o : compress_rq_options_t} :
    Parses at_ (readcompress_rq_options inOutDesc) o.bytes o :=
  (h.read o.compressionLevel).bind ((h.read o.encryptHeader).bind ((h.read o.solid).last
    fun r => compress_rq_options_t.mk o.compressionLevel o.encryptHeader (r.2.headD 0)))

theorem parses_compressRequest {rq : CompressRequest} (hrq : rq.Fits) :
    Parses at_ (readCompressRequest inOutDesc) rq.bytes rq := by
  obtain ⟨hsrc,hsrclen,hdest,hpassword,hcount,hentries⟩ := hrq
  have hpair := parses_pair h.reads.some (v := (rq.srcFolder,rq.destArchive)) hsrc ⟨hsrclen,hdest⟩
    (h.reads rq.destArchive)
  refine hpair.bind ((parses_options h).bind ((parses_stringByte h.reads.some hpassword).bind ?_))
  refine (parses_u32 h.reads.some hcount).bind ?_
  exact (parses_entries fun s hs => parses_string h.reads.some (hentries s hs)).last fun entries =>
    CompressRequest.mk rq.srcFolder rq.destArchive rq.compress_options rq.password entries

theorem parses_receiveStats {l : List PosixCompatDirItem} (hl : ∀ item ∈ l, item.Fits)
    (hturns : l.length < turns) :
    Parses at_ (receiveStats inOutDesc turns) (l.flatMap PosixCompatDirItem.bytes ++ stringBytes []) l := by
  induction l generalizing turns with
  | nil =>
    obtain ⟨turns,rfl⟩ := Nat.exists_eq_add_of_lt hturns
    exact (parses_string h.reads.some (s := []) (by decide)).bind (parses_pure [])
  | cons item l ih =>
    obtain ⟨hne,hname,hmode,hsize,hatime,hctime,hmtime⟩ := hl item List.mem_cons_self
    cases turns with
    | zero => simp at hturns
    | succ turns =>
      have hsome := h.reads.some
      have hrest : Parses at_ (receiveStats inOutDesc turns)
          (l.flatMap PosixCompatDirItem.bytes ++ stringBytes []) l :=
        ih (fun i hi => hl i (List.mem_cons_of_mem _ hi)) (by simpa using hturns)
      rw [List.flatMap_cons,PosixCompatDirItem.bytes]
      simp only [List.append_assoc]
      refine (parses_string hsome hname).bind ?_
      rw [if_neg hne]
      refine (parses_u32 hsome hmode).bind ((parses_u64 hsome hsize).bind ?_)
      refine (parses_u64 hsome hatime).bind ((parses_u64 hsome hctime).bind ?_)
      exact (parses_u64 hsome hmtime).bind (hrest.last fun l => item :: l)

theorem parses_compressFdsRequest {rq : CompressFdsRequest} (hrq : rq.Fits turns) :
    Parses at_ (readCompressFdsRequest inOutDesc turns) rq.bytes rq := by
  obtain ⟨hturns,hitems,hdest,hpassword⟩ := hrq
  refine (parses_receiveStats h hitems hturns).bind ((parses_string h.reads.some hdest).bind ?_)
  exact (parses_options h).bind ((parses_stringByte h.reads.some hpassword).last fun password =>
    CompressFdsRequest.mk rq.fstatsList rq.destArchive rq.compress_options password)

theorem parses_extractRequest {flags : Nat} {rq : ExtractRequest} (hrq : rq.Fits turns flags) :
    Parses at_ (readExtractRequest inOutDesc turns flags) (rq.bytes flags) (some rq) := by
  obtain ⟨hf,hdest,hpassword,hcount,hentries,hlast⟩ := hrq
  obtain ⟨f,destFolder,password,currentEntries,subDirLength⟩ := rq
  have hsome := h.reads.some
  -- behind the archives and the folder the two kinds differ only when there are entries
  have htail : (b2 flags = true ∨ currentEntries = []) → Parses at_ (do
      let password ← inOutDesc.readStringWithByteLen
      let nOfEntriesToExtract ← inOutDesc.readU32
      if nOfEntriesToExtract = 0 then pure (some (ExtractRequest.mk f destFolder password [] 0))
      else if ! b2 flags then pure none
      else do
        let currentEntries ← readEntries inOutDesc.readU32 nOfEntriesToExtract
        let subDirLength ← inOutDesc.readU32
        pure (some ⟨f,destFolder,password,currentEntries,subDirLength⟩))
      (byteString password ++ (littleEndian 4 currentEntries.length ++
        if currentEntries = [] then []
        else currentEntries.flatMap (littleEndian 4) ++ littleEndian 4 subDirLength))
      (some ⟨f,destFolder,password,currentEntries,subDirLength⟩) := by
    intro hsingle
    refine (parses_stringByte hsome hpassword).bind ((parses_u32 hsome hcount).bind ?_)
    by_cases hempty : currentEntries = []
    · subst hempty
      obtain rfl : subDirLength = 0 := hlast
      exact parses_pure _
    · have hflag := hsingle.resolve_right hempty
      rw [if_neg hempty] at hlast ⊢
      rw [if_neg (by simpa using hempty),if_neg (by simp [hflag])]
      have hnumbers : Parses at_ (readEntries inOutDesc.readU32 currentEntries.length)
          (currentEntries.flatMap (littleEndian 4)) currentEntries :=
        parses_entries fun n hn => parses_u32 hsome (hentries n hn)
      exact hnumbers.bind ((parses_u32 hsome hlast).last fun n =>
        some (ExtractRequest.mk f destFolder password currentEntries n))
  unfold readExtractRequest
  simp only [ExtractRequest.bytes]
  cases hflag : b2 flags with
  | true =>
    rw [hflag] at hf htail
    obtain ⟨srcArchive,rfl,hne,hlen⟩ := hf
    have hpair := parses_pair hsome (v := (srcArchive,destFolder)) hne ⟨hlen,hdest⟩ (h.reads destFolder)
    simp only [Bool.not_true,Bool.false_eq_true,if_false,if_true] at htail ⊢
    exact hpair.bind ((parses_pure ([srcArchive],destFolder)).skip (htail (.inl trivial)))
  | false =>
    rw [hflag] at hf htail
    obtain ⟨hturns,hf,hnone⟩ := hf
    simp only [Bool.not_false,Bool.false_eq_true,if_false,if_true,List.append_assoc] at htail ⊢
    refine (parses_strings hsome hf hturns).bind ((parses_string hsome hdest).bind ?_)
    exact (parses_pure (f,destFolder)).skip (htail (.inr hnone))

end Requests

end Readers

section Handlers

variable {ε σ : Type} {inOutDesc : LocalEnd ε σ} {at_ unread : σ → Str → Prop} {turns : Nat}
  {helper : Helper} {threadExit processExit : ε} (h : Serving inOutDesc at_ unread)

include h

theorem parses_writeAllChunks (cs : List Chunk) : Parses at_ (writeAllChunks inOutDesc cs) [] () := by
  induction cs with
  | nil => exact parses_pure ()
  | cons c cs ih => exact (h.writes c).skip ih

theorem parses_sendBaseResponse (ret : Int) (errno : Nat) :
    Parses at_ (inOutDesc.sendBaseResponse ret errno) [] () := by
  unfold Sink.sendBaseResponse
  split
  · exact h.writes _
  · exact (h.writes _).skip (h.writes _)

/-- The search closes the descriptor at its end, if the thread has not come to its own. -/
theorem consumes_find {flags : Nat} {rq : FindRequest} (hflags : b0 flags = false)
    (hrq : rq.Fits turns) (hfree : helper.currentSearchInOutDesc = false) :
    Consumes at_ unread (findNamesAndContent inOutDesc helper threadExit turns flags) rq.bytes := by
  rw [findNamesAndContent,if_neg (by simp [hflags]),if_neg (by simp [hfree])]
  rw [← List.append_nil rq.bytes]
  refine (parses_findRequest h.reads.some hrq).thenConsumes ?_
  refine (parses_sendBaseResponse h 0 0).skipConsumes ?_
  refine (parses_writeAllChunks h _).skipConsumes ?_
  split
  · exact consumes_throw
  · exact h.close

theorem parses_cancel {flags : Nat} (hflags : b0 flags = true) :
    Parses at_ (findNamesAndContent inOutDesc helper threadExit turns flags) [] () := by
  rw [findNamesAndContent,if_pos hflags]
  exact parses_sendBaseResponse h 0 0

theorem parses_find_refused {flags : Nat} (hflags : b0 flags = false)
    (hactive : helper.currentSearchInOutDesc = true) :
    Parses at_ (findNamesAndContent inOutDesc helper threadExit turns flags) [] () := by
  rw [findNamesAndContent,if_neg (by simp [hflags]),if_pos hactive]
  exact parses_sendBaseResponse h (-1) EAGAIN

theorem consumes_hash {algorithm dirHashOpts : Byte} {filepath : Str}
    (halgo : algorithm.toNat < rh_hash_maxAlgoIndex) (hpath : filepath.length < 65536) :
    Consumes at_ unread (hashFile inOutDesc.toDesc helper.hashes helper.view helper.errno processExit)
      ([algorithm] ++ ([dirHashOpts] ++ stringBytes filepath)) := by
  rw [← List.append_nil ([algorithm] ++ _)]
  refine (parses_hashFile h.reads.some halgo hpath).thenConsumes ?_
  simp only
  cases rh_computeHash_wrapper helper.hashes helper.view filepath algorithm dirHashOpts with
  | none => exact consumes_throw
  | some digest =>
    by_cases hempty : digest = []
    · simp only [if_pos hempty]
      exact (parses_sendBaseResponse h _ _).consumes h.stays
    · simp only [if_neg hempty]
      have hok := parses_sendBaseResponse h 0 0
      exact (hok.skip (h.writes (.bytes digest))).consumes h.stays

theorem parses_hash_unknown {algorithm dirHashOpts : Byte}
    (halgo : rh_hash_maxAlgoIndex ≤ algorithm.toNat) :
    Parses at_ (hashFile inOutDesc.toDesc helper.hashes helper.view helper.errno processExit)
      [algorithm,dirHashOpts] () := by
  change Parses at_ _ (([algorithm] ++ ([dirHashOpts] ++ [])) ++ []) ()
  exact (parses_hashFile_unknown h.reads.some halgo).bind (parses_sendBaseResponse h (-1) helper.errno)

theorem parses_receiveFds {indices : List Nat} {fds : Str} (hlen : fds.length = indices.length) :
    Parses at_ (receiveFds inOutDesc indices) fds () := by
  induction indices generalizing fds with
  | nil =>
    rw [List.length_eq_zero_iff.mp hlen]
    exact parses_pure ()
  | cons index indices ih =>
    cases fds with
    | nil => simp at hlen
    | cons fd fds =>
      have hrest : Parses at_ (receiveFds inOutDesc indices) fds () := ih (by simpa using hlen)
      exact (h.writes _).skip ((h.read fd).bind hrest)

variable (hlib : helper.lib7zLoaded = true) (hcreate : helper.createObjectFunc = true)

include hlib hcreate

theorem parses_compress {rq : CompressRequest} (hrq : rq.Fits) :
    Parses at_ (compressToArchive inOutDesc helper processExit turns 0) rq.bytes () := by
  rw [compressToArchive,if_neg (by simp [hlib]),if_neg (by simp),if_neg (by simp [hcreate])]
  rw [← List.append_nil rq.bytes]
  exact (parses_compressRequest h hrq).bind (parses_writeAllChunks h _)

theorem parses_compressFds {flags : Nat} {rq : CompressFdsRequest} {fds : Str} (hflags : flags ≠ 0)
    (hrq : rq.Fits turns) (hlen : fds.length = (helper.indices rq).length) :
    Parses at_ (compressToArchive inOutDesc helper processExit turns flags) (rq.bytes ++ fds) () := by
  rw [compressToArchive,if_neg (by simp [hlib]),if_pos hflags,compressToArchiveFromFds,
    if_neg (by simp [hcreate])]
  rw [← List.append_nil fds]
  exact (parses_compressFdsRequest h hrq).bind
    ((parses_receiveFds h hlen).bind (parses_writeAllChunks h _))

theorem parses_extract {flags : Nat} {rq : ExtractRequest} (hrq : rq.Fits turns flags) :
    Parses at_ (extractFromArchive inOutDesc helper turns flags) (rq.bytes flags) () := by
  rw [extractFromArchive,if_neg (by simp [hlib]),if_neg (by simp [hcreate])]
  rw [← List.append_nil (rq.bytes flags)]
  exact (parses_extractRequest h hrq).bind (parses_writeAllChunks h _)

end Handlers

/-! ### A turn -/

section Turns

variable {ε σ : Type} {inOutDesc : LocalEnd ε σ} {at_ unread : σ → Str → Prop} {turns : Nat}
  {helper : Helper} {threadExit processExit : ε} {r : LocalRequest}

theorem LocalRequest.body_ne_nil {r : LocalRequest} (hr : ¬ r.Taken helper) : r.body ≠ [] := by
  have hnumber : ∀ width n : Nat, 0 < width → littleEndian width n ≠ [] := fun width n hwidth => by
    rw [← List.length_pos_iff_ne_nil,length_littleEndian]
    exact hwidth
  cases r with
  | cancel flags => exact absurd trivial hr
  | find flags rq => simp [body,FindRequest.bytes,hnumber]
  | hash flags algorithm dirHashOpts filepath => simp [body]
  | compress rq => simp [body,CompressRequest.bytes,compress_rq_options_t.bytes]
  | compressFds flags rq fds => simp [body,CompressFdsRequest.bytes,compress_rq_options_t.bytes]
  | extract flags rq => simp [body,ExtractRequest.bytes,byteString]

/-- The requests for which there is a fork. -/
def LocalRequest.Forked : LocalRequest → Prop
  | compress _ | compressFds _ _ _ | extract _ _ => True
  | _ => False

theorem LocalRequest.Forked.dispatched (hr : r.Forked) :
    r.rq.request = ACTION_COMPRESS ∨ r.rq.request = ACTION_EXTRACT := by
  cases r with
  | cancel _ => exact hr.elim
  | find _ _ => exact hr.elim
  | hash _ _ _ _ => exact hr.elim
  | compress _ => exact .inl rfl
  | compressFds _ _ _ => exact .inl rfl
  | extract _ _ => exact .inr rfl

theorem LocalRequest.Forked.taken_iff (hr : r.Forked) : r.Taken helper ↔
    helper.forks = true ∧ helper.lib7zLoaded = true ∧ helper.createObjectFunc = true ∧
      ∀ count ∈ helper.reaped, count = r.body.length := by
  cases r with
  | cancel _ => exact hr.elim
  | find _ _ => exact hr.elim
  | hash _ _ _ _ => exact hr.elim
  | compress _ => exact Iff.rfl
  | compressFds _ _ _ => exact Iff.rfl
  | extract _ _ => exact Iff.rfl

/-- What the child of a fork does. -/
def archiveChild (inOutDesc : LocalEnd ε σ) (helper : Helper) (processExit : ε) (turns : Nat)
    (rq : request_type) : EStateM ε σ Unit :=
  if rq.request = ACTION_COMPRESS then compressToArchive inOutDesc helper processExit turns rq.flags
  else extractFromArchive inOutDesc helper turns rq.flags

variable (h : Serving inOutDesc at_ unread)

include h

theorem parses_fork_fails {rq : request_type} (hforks : ¬ helper.forks = true) :
    Parses at_ (forkP7ZipSession inOutDesc helper processExit turns rq) [] () := by
  rw [forkP7ZipSession,if_pos hforks]
  exact parses_sendBaseResponse h (-1) helper.errno

theorem parses_fork_early {rq : request_type} {front : Str} (hforks : helper.forks = true)
    (hreaped : helper.reaped = some front.length) :
    Parses at_ (forkP7ZipSession inOutDesc helper processExit turns rq) front () := by
  rw [forkP7ZipSession,if_neg (by simp [hforks]),hreaped]
  exact (h.reads front).last fun _ => ()

omit h in
theorem parses_fork {rq : request_type} {bs : Str} (hforks : helper.forks = true)
    (hreaped : helper.reaped = none)
    (hchild : Parses at_ (attempt (archiveChild inOutDesc helper processExit turns rq) fun _ => pure ())
      bs ()) :
    Parses at_ (forkP7ZipSession inOutDesc helper processExit turns rq) bs () := by
  rw [forkP7ZipSession,if_neg (by simp [hforks]),hreaped]
  exact hchild

theorem parses_child_missing {rq : request_type}
    (hmissing : ¬ (helper.lib7zLoaded = true ∧ helper.createObjectFunc = true)) :
    Parses at_ (attempt (archiveChild inOutDesc helper processExit turns rq) fun _ => pure ()) [] () := by
  have hexit : Parses at_ (attempt (throw processExit : EStateM ε σ Unit) fun _ => pure ()) [] () :=
    parses_pure ()
  by_cases hlib : helper.lib7zLoaded = true
  · have hcreate : ¬ helper.createObjectFunc = true := fun hc => hmissing ⟨hlib,hc⟩
    unfold archiveChild
    split
    · rw [compressToArchive,if_neg (by simp [hlib]),compressToArchiveFromFds,if_pos hcreate,
        if_pos hcreate]
      split <;> exact hexit
    · rw [extractFromArchive,if_neg (by simp [hlib]),if_pos hcreate]
      exact (parses_sendBaseResponse h (-1) 12346).attempt
  · unfold archiveChild
    rw [compressToArchive,if_pos hlib,extractFromArchive,if_pos hlib]
    split <;> exact (parses_sendBaseResponse h (-1) 771).attempt

theorem parses_child (hr : r.Forked) (hfits : r.Fits turns helper)
    (hlib : helper.lib7zLoaded = true) (hcreate : helper.createObjectFunc = true) :
    Parses at_ (archiveChild inOutDesc helper processExit turns r.rq) r.body () := by
  cases r with
  | cancel _ => exact hr.elim
  | find _ _ => exact hr.elim
  | hash _ _ _ _ => exact hr.elim
  | compress rq => exact parses_compress h hlib hcreate hfits
  | compressFds flags rq fds =>
    obtain ⟨hflags,hrq,hlen⟩ := hfits
    exact parses_compressFds h hlib hcreate (fun h0 => hflags (Fin.ext h0)) hrq hlen
  | extract flags rq => exact parses_extract h hlib hcreate hfits

/-- When all of it is taken, the turn for a request leaves what is behind it. -/
theorem consumes_turn (hfits : r.Fits turns helper) (htaken : r.Taken helper) :
    Consumes at_ unread (clientSessionTurn inOutDesc helper threadExit processExit turns) r.bytes := by
  refine (parses_requestType h.reads.some r.rq).thenConsumes ?_
  by_cases hr : r.Forked
  · obtain ⟨hforks,hlib,hcreate,hreaped⟩ := hr.taken_iff.mp htaken
    rw [if_pos hr.dispatched]
    refine Parses.consumes (a := ()) ?_ h.stays
    cases hearly : helper.reaped with
    | none => exact parses_fork hforks hearly (parses_child h hr hfits hlib hcreate).attempt
    | some count =>
      obtain rfl := hreaped count hearly
      exact parses_fork_early h hforks hearly
  · cases r with
    | cancel flags =>
      have hfind : (LocalRequest.cancel flags).rq.request = ACTION_FIND := rfl
      rw [if_neg (by rw [hfind]; decide),if_neg (by rw [hfind]; decide),if_pos hfind]
      exact (parses_cancel h hfits).consumes h.stays
    | find flags rq =>
      have hfind : (LocalRequest.find flags rq).rq.request = ACTION_FIND := rfl
      rw [if_neg (by rw [hfind]; decide),if_neg (by rw [hfind]; decide),if_pos hfind]
      exact consumes_find h hfits.1 hfits.2 htaken
    | hash flags algorithm dirHashOpts filepath =>
      have hhash : (LocalRequest.hash flags algorithm dirHashOpts filepath).rq.request = ACTION_HASH := rfl
      rw [if_neg (by rw [hhash]; decide),if_pos hhash]
      exact consumes_hash h htaken hfits
    | compress _ => exact absurd trivial hr
    | compressFds _ _ _ => exact absurd trivial hr
    | extract _ _ => exact absurd trivial hr

/-- Else a part of it is still there when the turn has come to its end. -/
theorem exists_parses_turn (hfits : r.Fits turns helper) (hpossible : r.Possible helper)
    (hleft : ¬ r.Taken helper) : ∃ front left, r.body = front ++ left ∧ left ≠ [] ∧
      Parses at_ (clientSessionTurn inOutDesc helper threadExit processExit turns)
        ([r.rq.byte] ++ front) () := by
  have hbody := LocalRequest.body_ne_nil hleft
  have hrq := parses_requestType h.reads.some r.rq
  by_cases hr : r.Forked
  · rw [hr.taken_iff] at hleft
    have hnothing : Parses at_ (forkP7ZipSession inOutDesc helper processExit turns r.rq) [] () →
        ∃ front left, r.body = front ++ left ∧ left ≠ [] ∧
          Parses at_ (clientSessionTurn inOutDesc helper threadExit processExit turns)
            ([r.rq.byte] ++ front) () := by
      intro hfork
      refine ⟨[],r.body,rfl,hbody,hrq.bind ?_⟩
      rw [if_pos hr.dispatched]
      exact hfork
    by_cases hforks : helper.forks = true
    · cases hearly : helper.reaped with
      | none =>
        refine hnothing (parses_fork hforks hearly (parses_child_missing h fun hmissing => hleft ?_))
        exact ⟨hforks,hmissing.1,hmissing.2,fun count hcount => by simp [hearly] at hcount⟩
      | some count =>
        have hcount := hpossible count hearly
        have hless : count < r.body.length := by
          have hpos := List.length_pos_of_ne_nil hbody
          split_ifs at hcount with hlib
          · refine lt_of_le_of_ne hcount fun hall => hleft ⟨hforks,hlib.1,hlib.2,fun c hc => ?_⟩
            rw [hearly] at hc
            rw [← hall,Option.some.inj hc]
          · omega
        refine ⟨r.body.take count,r.body.drop count,(List.take_append_drop count r.body).symm,?_,
          hrq.bind ?_⟩
        · rw [← List.length_pos_iff_ne_nil,List.length_drop]
          omega
        · rw [if_pos hr.dispatched]
          refine parses_fork_early h hforks ?_
          rw [hearly,List.length_take,Nat.min_eq_left hless.le]
    · exact hnothing (parses_fork_fails h hforks)
  · cases r with
    | cancel flags => exact absurd trivial hleft
    | find flags rq =>
      have hfind : (LocalRequest.find flags rq).rq.request = ACTION_FIND := rfl
      refine ⟨[],_,rfl,hbody,hrq.bind ?_⟩
      rw [if_neg (by rw [hfind]; decide),if_neg (by rw [hfind]; decide),if_pos hfind]
      exact parses_find_refused h hfits.1 (by simpa [LocalRequest.Taken] using hleft)
    | hash flags algorithm dirHashOpts filepath =>
      have hhash : (LocalRequest.hash flags algorithm dirHashOpts filepath).rq.request = ACTION_HASH := rfl
      have hpath : stringBytes filepath ≠ [] := by
        rw [← List.length_pos_iff_ne_nil,stringBytes,List.length_append,length_littleEndian]
        omega
      refine ⟨[algorithm,dirHashOpts],stringBytes filepath,rfl,hpath,hrq.bind ?_⟩
      rw [if_neg (by rw [hhash]; decide),if_pos hhash]
      exact parses_hash_unknown h (by simpa [LocalRequest.Taken] using hleft)
    | compress _ => exact absurd trivial hr
    | compressFds _ _ _ => exact absurd trivial hr
    | extract _ _ => exact absurd trivial hr

end Turns

/-! ### A session -/

/-- The two ways between a local client and the helper. -/
structure LocalConnection (ε α β : Type) where
  fromClient : Transport ε α
  toClient : Transport ε β

structure LocalWays (α β : Type) where
  fromClient : α
  toClient : β
  /-- Whether the helper has closed its descriptor. -/
  closed : Bool
  deriving DecidableEq

namespace LocalWays

variable {α β : Type}

def fromClientPart : Lens (LocalWays α β) α where
  get w := w.fromClient
  set w s := { w with fromClient := s }
  get_set _ _ := rfl
  set_get _ := rfl
  set_set _ _ _ := rfl

def toClientPart : Lens (LocalWays α β) β where
  get w := w.toClient
  set w s := { w with toClient := s }
  get_set _ _ := rfl
  set_get _ := rfl
  set_set _ _ _ := rfl

end LocalWays

namespace LocalConnection

variable {ε α β : Type} (conn : LocalConnection ε α β)

/-- What is done with a descriptor that has been closed, or with an open one. -/
def onOpen {ρ : Type} (onClosed x : EStateM ε (LocalWays α β) ρ) : EStateM ε (LocalWays α β) ρ := do
  let w ← get
  if w.closed then onClosed else x

def inOutDesc : LocalEnd ε (LocalWays α β) where
  readAllOrExit count := onOpen (throw conn.fromClient.threadExit)
    (LocalWays.fromClientPart.run (conn.fromClient.readAllOrExit count))
  diverges := conn.fromClient.diverges
  writeAllOrExit c := onOpen (throw conn.toClient.threadExit)
    (LocalWays.toClientPart.run (conn.toClient.writeAllOrExit c.encode))
  read count := onOpen (pure (-1,[])) (LocalWays.fromClientPart.run (conn.fromClient.read count))
  close := modify fun w => { w with closed := true }

/-- The client's bytes that have not been read. -/
def Unread (w : LocalWays α β) (bs : Str) : Prop := conn.fromClient.content w.fromClient = bs

def Open (w : LocalWays α β) (bs : Str) : Prop := w.closed = false ∧ conn.Unread w bs

theorem wp_onOpen {ρ : Type} {x y : EStateM ε (LocalWays α β) ρ} {w : LocalWays α β}
    {Q : ρ → LocalWays α β → Prop} {E : ε → LocalWays α β → Prop} (hw : w.closed = false)
    (hx : wp x Q E w) : wp (onOpen y x) Q E w := by
  rw [onOpen,wp_bind,wp_get,if_neg (by simp [hw])]
  exact hx

theorem serving : Serving conn.inOutDesc conn.Open conn.Unread where
  reads bs w rest h := by
    refine wp_onOpen h.1 ?_
    rw [wp_run]
    exact wp_mono (conn.fromClient.reads bs _ rest h.2) (fun _ _ hs => ⟨hs.1,h.1,hs.2⟩) fun _ _ h => h
  read b w rest h := by
    refine wp_onOpen h.1 ?_
    rw [wp_run]
    have hsome : conn.fromClient.content w.fromClient = b :: rest := h.2
    obtain ⟨k,t,hk,hcount,_,hread,hnext⟩ := conn.fromClient.read_some 1 w.fromClient (by decide)
      (by rw [hsome]; simp)
    obtain rfl : k = 1 := by omega
    refine (wp_of_ok hread).mpr ⟨by rw [hsome]; rfl,h.1,?_⟩
    change conn.fromClient.content t = rest
    rw [hnext,hsome]
    rfl
  writes c w rest h := by
    refine wp_onOpen h.1 ?_
    rw [wp_run]
    exact wp_mono (conn.toClient.writes c _ _ rfl) (fun _ _ _ => ⟨rfl,h⟩) fun _ _ h => h
  stays _ _ h := h.2
  close _ _ h := h.2

end LocalConnection

section Session

variable {ε α β : Type} (conn : LocalConnection ε α β) (threadExit processExit : ε) (turns : Nat)

/-- The session with these helpers comes from `w` to the end of its last turn. -/
def Session (helpers : List Helper) (w t : LocalWays α β) : Prop :=
  clientSession conn.inOutDesc threadExit processExit turns helpers w = .ok () t

variable {conn threadExit processExit turns} {w t : LocalWays α β} {helper : Helper}
  {helpers : List Helper} {requests : List LocalRequest} {tail : Str}

theorem session_nil : Session conn threadExit processExit turns [] w t ↔ w = t :=
  ⟨fun h => by cases h; rfl,fun h => by rw [h]; rfl⟩

theorem session_cons : Session conn threadExit processExit turns (helper :: helpers) w t ↔
    ∃ u, clientSessionTurn conn.inOutDesc helper threadExit processExit turns w = .ok () u ∧
      Session conn threadExit processExit turns helpers u t := by
  constructor
  · intro h
    obtain ⟨_,u,hturn,hrest⟩ := ok_of_run_bind h
    exact ⟨u,hturn,hrest⟩
  · intro h
    obtain ⟨u,hturn,hrest⟩ := h
    unfold Session clientSession
    rw [run_bind_ok hturn]
    exact hrest

theorem open_of_turn
    (h : clientSessionTurn conn.inOutDesc helper threadExit processExit turns w = .ok () t) :
    w.closed = false := by
  by_contra hclosed
  have hstop : wp (clientSessionTurn conn.inOutDesc helper threadExit processExit turns)
      (fun _ _ => False) (fun _ _ => True) w := by
    rw [clientSessionTurn,wp_bind,wp_map,Source.readU8,wp_bind]
    change wp (LocalConnection.onOpen _ _) _ _ w
    rw [LocalConnection.onOpen,wp_bind,wp_get,if_pos (by simpa using hclosed)]
    trivial
  exact (wp_of_ok h).mp hstop

/-- Wherever the session comes back to its loop, what has not been read begins with the next request,
just when each request for which it does so is taken as a whole. -/
theorem session_boundaries_iff (hfits : List.Forall₂ (LocalRequest.Fits turns) helpers requests)
    (hpossible : List.Forall₂ LocalRequest.Possible helpers requests)
    (hw : conn.Unread w (requests.flatMap LocalRequest.bytes ++ tail)) :
    (∀ n t, Session conn threadExit processExit turns (helpers.take n) w t →
        conn.Unread t ((requests.drop n).flatMap LocalRequest.bytes ++ tail)) ↔
      ∀ n t helper r, Session conn threadExit processExit turns (helpers.take n) w t →
        t.closed = false → helpers[n]? = some helper → requests[n]? = some r → r.Taken helper := by
  induction hfits generalizing w with
  | nil =>
    refine iff_of_true (fun n t hrun => ?_) fun n t helper r _ _ hhelper => by simp at hhelper
    rw [List.take_nil,session_nil] at hrun
    rw [List.drop_nil,← hrun]
    exact hw
  | @cons helper r helpers requests hfit _ ih =>
    obtain ⟨hpossible₁,hpossible₂⟩ := List.forall₂_cons.mp hpossible
    by_cases hclosed : w.closed = false
    · rw [List.flatMap_cons,List.append_assoc] at hw
      by_cases htaken : r.Taken helper
      · -- the first turn, if it comes to its end, leaves the other requests
        have hturn : ∀ u, clientSessionTurn conn.inOutDesc helper threadExit processExit turns w =
            .ok () u → conn.Unread u (requests.flatMap LocalRequest.bytes ++ tail) := fun u hu =>
          (wp_of_ok hu).mp (consumes_turn conn.serving hfit htaken w _ ⟨hclosed,hw⟩)
        constructor
        · intro hall n t helper' r' hrun hopen hhelper hr
          cases n with
          | zero =>
            cases hhelper
            cases hr
            exact htaken
          | succ n =>
            obtain ⟨u,hu,hrest⟩ := session_cons.mp hrun
            have hlater := (ih hpossible₂ (hturn u hu)).mp fun m v hv =>
              hall (m+1) v (session_cons.mpr ⟨u,hu,hv⟩)
            exact hlater n t helper' r' hrest hopen hhelper hr
        · intro hall n t hrun
          cases n with
          | zero =>
            obtain rfl := session_nil.mp hrun
            rw [List.drop_zero,List.flatMap_cons,List.append_assoc]
            exact hw
          | succ n =>
            obtain ⟨u,hu,hrest⟩ := session_cons.mp hrun
            have hlater := (ih hpossible₂ (hturn u hu)).mpr fun m v helper' r' hv =>
              hall (m+1) v helper' r' (session_cons.mpr ⟨u,hu,hv⟩)
            exact hlater n t hrest
      · -- what the first turn leaves of its request stands before the next one
        refine iff_of_false (fun hall => ?_) fun hall =>
          htaken (hall 0 w helper r (session_nil.mpr rfl) hclosed rfl rfl)
        have hpart : ∃ front left, r.body = front ++ left ∧ left ≠ [] ∧ Parses conn.Open
            (clientSessionTurn conn.inOutDesc helper threadExit processExit turns)
            ([r.rq.byte] ++ front) () := exists_parses_turn conn.serving hfit hpossible₁ htaken
        obtain ⟨front,left,hbody,hleft,hparses⟩ := hpart
        have hstart : conn.Open w (([r.rq.byte] ++ front) ++
            (left ++ (requests.flatMap LocalRequest.bytes ++ tail))) := by
          refine ⟨hclosed,?_⟩
          simpa [LocalRequest.bytes,hbody] using hw
        obtain ⟨_,u,hu,_,hunread⟩ := ok_of_wp (hparses w _ hstart)
        have hnext := hall 1 u (session_cons.mpr ⟨u,hu,session_nil.mpr rfl⟩)
        have hsame : left ++ (requests.flatMap LocalRequest.bytes ++ tail) =
            requests.flatMap LocalRequest.bytes ++ tail := hunread.2.symm.trans hnext
        exact hleft (List.append_left_eq_self.mp hsame)
    · -- a closed descriptor ends the session before the first request
      refine iff_of_true (fun n t hrun => ?_) fun n t helper' r' hrun hopen => ?_
      · cases n with
        | zero =>
          obtain rfl := session_nil.mp hrun
          exact hw
        | succ n =>
          obtain ⟨u,hu,_⟩ := session_cons.mp hrun
          exact absurd (open_of_turn hu) hclosed
      · cases n with
        | zero =>
          obtain rfl := session_nil.mp hrun
          exact absurd hopen hclosed
        | succ n =>
          obtain ⟨u,hu,_⟩ := session_cons.mp hrun
          exact absurd (open_of_turn hu) hclosed

end Session

def wholeConnection : LocalConnection Stop Str Str := ⟨wholeWrites,wholeWrites⟩

/-- Each request is carried out, and answered by one byte. -/
def ready : Helper where
  currentSearchInOutDesc := false
  lib7zLoaded := true
  createObjectFunc := true
  forks := true
  reaped := none
  errno := 0
  hashes := crcHashes
  view := oneLetter
  search _ := ([.u16 0],false)
  compress _ := [.u8 RESPONSE_OK]
  indices rq := List.range rq.fstatsList.length
  compressFds _ := [.u8 RESPONSE_OK]
  extract _ := [.u8 RESPONSE_OK]

def digestOfX : LocalRequest := .hash 0 0 0 [47,120]

def compressionOfX : LocalRequest := .compress ⟨[47],[47,97],⟨1,0,0⟩,[],[[120]]⟩

def searchForX : LocalRequest := .find 0 ⟨0,[[47]],[120],[]⟩

theorem fits_digestOfX : digestOfX.Fits 3 ready := by
  change [47,120].length < 65536
  decide

theorem fits_compressionOfX : compressionOfX.Fits 3 ready := by
  change CompressRequest.Fits _
  unfold CompressRequest.Fits
  decide

theorem fits_searchForX (helper : Helper) : searchForX.Fits 3 helper := by
  refine ⟨by decide,?_⟩
  unfold FindRequest.Fits
  decide

theorem session_boundaries_ready :
    Session wholeConnection .threadExit .crash 3 [ready,ready,ready]
      ⟨[digestOfX,compressionOfX,searchForX].flatMap LocalRequest.bytes ++ [9],[],false⟩
      ⟨[9],[0,0x8C,0xDC,0x16,0x83,0,0,0,0],true⟩ ∧
    ∀ n t, Session wholeConnection .threadExit .crash 3 ([ready,ready,ready].take n)
      ⟨[digestOfX,compressionOfX,searchForX].flatMap LocalRequest.bytes ++ [9],[],false⟩ t →
    wholeConnection.Unread t
      (([digestOfX,compressionOfX,searchForX].drop n).flatMap LocalRequest.bytes ++ [9]) := by
  have hfits : List.Forall₂ (LocalRequest.Fits 3) [ready,ready,ready]
      [digestOfX,compressionOfX,searchForX] :=
    .cons fits_digestOfX (.cons fits_compressionOfX (.cons (fits_searchForX ready) .nil))
  have hnone : ∀ r, LocalRequest.Possible ready r := fun r count hcount => by simp [ready] at hcount
  have hpossible : List.Forall₂ LocalRequest.Possible [ready,ready,ready]
      [digestOfX,compressionOfX,searchForX] := .cons (hnone _) (.cons (hnone _) (.cons (hnone _) .nil))
  have hall : ∀ r ∈ [digestOfX,compressionOfX,searchForX], r.Taken ready := by
    simp only [List.forall_mem_cons,List.not_mem_nil,false_implies,implies_true,and_true]
    refine ⟨?_,⟨rfl,rfl,rfl,fun _ h => by simp [ready] at h⟩,rfl⟩
    change (0 : Byte).toNat < rh_hash_maxAlgoIndex
    decide
  have hstart : wholeConnection.Unread
      ⟨[digestOfX,compressionOfX,searchForX].flatMap LocalRequest.bytes ++ [9],[],false⟩
      ([digestOfX,compressionOfX,searchForX].flatMap LocalRequest.bytes ++ [9]) := rfl
  refine ⟨?_,?_⟩
  · obtain ⟨_,t,hrun,rfl⟩ := ok_of_wp (by decide +kernel :
      wp (clientSession wholeConnection.inOutDesc .threadExit .crash 3 [ready,ready,ready])
        (fun _ t => t = ⟨[9],[0,0x8C,0xDC,0x16,0x83,0,0,0,0],true⟩) (fun _ _ => False)
        ⟨[digestOfX,compressionOfX,searchForX].flatMap LocalRequest.bytes ++ [9],[],false⟩)
    exact hrun
  refine (session_boundaries_iff hfits hpossible hstart).mpr fun n t helper r _ _ hhelper hr => ?_
  have hready : helper = ready := by
    have hmem := List.mem_of_getElem? hhelper
    simpa using hmem
  rw [hready]
  exact hall r (List.mem_of_getElem? hr)

/-- The search is refused as another one is active, and its options are the next request byte. -/
theorem session_boundaries_refused : ¬ ∀ n t,
    Session wholeConnection .threadExit .crash 3
      (([{ ready with currentSearchInOutDesc := true }] : List Helper).take n)
      ⟨[searchForX].flatMap LocalRequest.bytes ++ [9],[],false⟩ t →
    wholeConnection.Unread t (([searchForX].drop n).flatMap LocalRequest.bytes ++ [9]) := by
  intro hall
  have hturn : Session wholeConnection .threadExit .crash 3
      (([{ ready with currentSearchInOutDesc := true }] : List Helper).take 1)
      ⟨[searchForX].flatMap LocalRequest.bytes ++ [9],[],false⟩
      ⟨searchForX.body ++ [9],[RESPONSE_ERROR,11,0,0,0],false⟩ := rfl
  have hleft : searchForX.body ++ [9] = ([searchForX].drop 1).flatMap LocalRequest.bytes ++ [9] :=
    hall 1 _ hturn
  exact absurd hleft (by decide)

end RootHelper
