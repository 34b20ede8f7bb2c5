import RootHelper.Hashes
import RootHelper.StatsExchange

/-!
Hashing for a remote client: the server's handler, the proxy's way of passing the digest on, and when
the answer is the digest of what there is to be hashed.
-/

set_option autoImplicit false

namespace RootHelper
open Posix Control

variable {ε σ : Type}

def EINVAL : Nat := 22

/-- What the error number is when no iterator has been made. -/
def iteratorErrno (v : View) (dir : Str) : Nat := if absolute dir then v.errno dir else EINVAL

/-- `errno` is what the thread has there already. -/
def hashFile (inOutDesc : Desc ε σ) (h : HashFunctions) (v : View) (errno : Nat) (crash : ε) :
    EStateM ε σ Unit := do
  match ← hashFile_request inOutDesc.toSource with
  | .hashFile algorithm dirHashOpts (some filepath) =>
    match rh_computeHash_wrapper h v filepath algorithm dirHashOpts with
    | none => throw crash
    | some digest =>
      if digest = [] then inOutDesc.sendBaseResponse (-1) (iteratorErrno v filepath)
      else do
        inOutDesc.sendBaseResponse 0 0
        inOutDesc.writeAllOrExit (.bytes digest)
  | _ => inOutDesc.sendBaseResponse (-1) errno

/-- One turn of the server's loop that finds such a request. -/
def serveHash (inOutDesc : Desc ε σ) (h : HashFunctions) (v : View) (errno : Nat) (crash : ε) :
    EStateM ε σ Unit := do
  let rq ← request_type.ofByte <$> inOutDesc.readU8
  if rq.request = ACTION_HASH then hashFile inOutDesc h v errno crash else throw inOutDesc.diverges

/-- What `client_hash` does once it has sent its request. -/
def client_hash_response (rcl : Source ε σ) (cl : Sink ε σ) : Option Byte → EStateM ε σ Unit
  | none => pure ()
  | some algorithm => do
    let errnum ← rcl.receiveBaseResponse
    if errnum ≠ 0 then do
      cl.writeAllOrExit (.u8 RESPONSE_ERROR)
      cl.writeAllOrExit (.u32 errnum)
    else do
      let remoteHash ← rcl.readAllOrExit (hashSize algorithm)
      cl.sendBaseResponse 0 0
      cl.writeAllOrExit (.bytes remoteHash)

section Covered

variable (h : HashFunctions) (v : View) (filePath : Str) (algo dirHashOpts : Byte)

def IsDirectory : Prop :=
  readdirIterator.efdL v filePath = .d ∨ readdirIterator.efdL v filePath = .L

instance : Decidable (IsDirectory v filePath) := inferInstanceAs (Decidable (_ ∨ _))

/-- Everything met below a directory can be looked at, each directory there is listed, and each file
that is not passed over is read to its end. -/
def ReadThrough : Prop := ∀ path name,
  readdirIterator.Met v .RECURSIVE (ignoreUnixHiddenFiles dirHashOpts) filePath path name →
    (v.lstat path).isSome ∧
    (readdirIterator.efdL v path = .d → ∃ names, v.opendir path = some names) ∧
    (readdirIterator.efdL v path = .file → passedOver dirHashOpts name = false →
      IsRead v (pathConcat filePath (path.drop (filePath.length + 1))))

/-- What is a digest of all of a file or of all below a directory: by content, those of all files are
among what has been hashed in the end. -/
inductive DigestOf : Str → Prop
  | file : ¬ IsDirectory v filePath → IsRead v filePath →
      DigestOf (h.digest (hashLabel algo) (fileContent v filePath))
  | names {it : readdirIterator} : IsDirectory v filePath → dirIterator v filePath dirHashOpts = some it →
      withNames dirHashOpts → ReadThrough v filePath dirHashOpts →
      DigestOf (h.digest (hashLabel algo) ((it.items v).flatMap (named v filePath dirHashOpts)))
  | contents {it : readdirIterator} {s : Str} : IsDirectory v filePath →
      dirIterator v filePath dirHashOpts = some it → withNames dirHashOpts = false →
      ReadThrough v filePath dirHashOpts → dirStream h v filePath algo dirHashOpts = some (some s) →
      ((filesHashed v dirHashOpts it).map (contentDigest h v filePath algo)).Subperm
        (slots (hashSize algo) (s.length / hashSize algo) s) →
      DigestOf (h.digest (hashLabel algo) s)

/-- An error, or a digest of its length that is one of all there is. -/
def RightReply (reply : Str) : Prop :=
  (∃ e, 0 < e ∧ e < 2^31 ∧ reply = errorBytes e) ∨
    ∃ digest, digest.length = hashSize algo ∧ DigestOf h v filePath algo dirHashOpts digest ∧
      reply = RESPONSE_OK :: digest

/-- When the answer is a right one: a file can be read; a directory cannot be listed or all of it can
be read, and with no names there is room for the digests of its files. -/
def Hashable : Prop :=
  if IsDirectory v filePath then
    ∀ it ∈ dirIterator v filePath dirHashOpts, ReadThrough v filePath dirHashOpts ∧
      (withNames dirHashOpts ∨ Room (hashSize algo) (filesHashed v dirHashOpts it).length)
  else IsRead v filePath

end Covered

section Stream

variable {h : HashFunctions} {v : View} {filePath : Str} {algo dirHashOpts : Byte}
  {it : readdirIterator}

theorem mem_filesHashed (hit : dirIterator v filePath dirHashOpts = some it) {i : Current}
    (hi : i ∈ filesHashed v dirHashOpts it) : ∃ path name,
      readdirIterator.Met v .RECURSIVE (ignoreUnixHiddenFiles dirHashOpts) filePath path name ∧
      readdirIterator.efdL v path = .file ∧ passedOver dirHashOpts name = false ∧
      i.current = path.drop (filePath.length + 1) := by
  unfold filesHashed readdirIterator.items at hi
  obtain ⟨hmem,hkeep⟩ := List.mem_filter.mp hi
  obtain ⟨e,he,rfl⟩ := List.mem_map.mp hmem
  have hmet := (readdirIterator.mem_entries hit).mp he
  obtain ⟨_,names,_,hrest⟩ := readdirIterator.createIterator_eq_some hit
  have hroot : it.rootLen = filePath.length + 1 := by rw [hrest]; rfl
  simp only [decide_eq_true_eq] at hkeep
  refine ⟨e.1,e.2,hmet,?_,hkeep.2,?_⟩
  · have hefd := hkeep.1
    simp only [readdirIterator.item] at hefd
    split_ifs at hefd
    exact hefd
  · simp only [readdirIterator.item,hroot]

theorem isRead_of_readThrough (hit : dirIterator v filePath dirHashOpts = some it)
    (hread : ReadThrough v filePath dirHashOpts) :
    ∀ i ∈ filesHashed v dirHashOpts it, IsRead v (pathConcat filePath i.current) := by
  intro i hi
  obtain ⟨path,name,hmet,hfile,hpass,hcurrent⟩ := mem_filesHashed hit hi
  rw [hcurrent]
  exact (hread path name hmet).2.2 hfile hpass

theorem contents_room (hit : dirIterator v filePath dirHashOpts = some it)
    (hnames : withNames dirHashOpts = false) (halgo : algo.toNat < rh_hash_maxAlgoIndex)
    (hread : ReadThrough v filePath dirHashOpts)
    (hroom : Room (hashSize algo) (filesHashed v dirHashOpts it).length) :
    ∃ s, dirStream h v filePath algo dirHashOpts = some (some s) ∧
      ((filesHashed v dirHashOpts it).map (contentDigest h v filePath algo)).Subperm
        (slots (hashSize algo) (s.length / hashSize algo) s) := by
  obtain ⟨x,hfilled,hx⟩ := contents_filled h hit hnames halgo (isRead_of_readThrough hit hread) hroom
  refine ⟨_,hx,hfilled.subperm (length_contentDigest h v filePath halgo _) (hashSize_pos halgo) ?_⟩
  rw [List.length_map]
  exact hroom.holds

theorem room_of_contents (hit : dirIterator v filePath dirHashOpts = some it)
    (hnames : withNames dirHashOpts = false) (halgo : algo.toNat < rh_hash_maxAlgoIndex)
    (hread : ∀ i ∈ filesHashed v dirHashOpts it, IsRead v (pathConcat filePath i.current)) {s : Str}
    (hs : dirStream h v filePath algo dirHashOpts = some (some s))
    (hsub : ((filesHashed v dirHashOpts it).map (contentDigest h v filePath algo)).Subperm
      (slots (hashSize algo) (s.length / hashSize algo) s)) :
    Room (hashSize algo) (filesHashed v dirHashOpts it).length := by
  have hlen := length_contentDigest h v filePath halgo (filesHashed v dirHashOpts it)
  rw [dirStream_contents hit hnames,outputs_of_isRead hread] at hs
  obtain ⟨x,hx,rfl⟩ := Option.map_eq_some_iff.mp (Option.some.inj hs)
  by_contra hroom
  by_cases hdvd : hashSize algo ∣ hashes_size
  · have hbounded := (bounded_new hdvd).run hdvd hx
    have hcount := hsub.length_le
    rw [List.length_map,length_slots,length_sortHashes,hbounded.length] at hcount
    have hle : (filesHashed v dirHashOpts it).length*hashSize algo ≤ 2^32 :=
      calc (filesHashed v dirHashOpts it).length*hashSize algo
          ≤ x.CURRENTMAXSIZE/hashSize algo*hashSize algo := Nat.mul_le_mul_right _ hcount
        _ ≤ x.CURRENTMAXSIZE := Nat.div_mul_le_self _ _
        _ ≤ 2^32 := hbounded.le
    exact hroom (by rw [Room,if_pos hdvd]; exact hle)
  · rw [← List.length_map (contentDigest h v filePath algo)] at hroom
    rw [run_over hdvd (hashSize_pos halgo) (hashSize_le halgo) hlen hroom] at hx
    cases hx

end Stream

section Reply

variable {h : HashFunctions} {v : View} {filePath : Str} {algo dirHashOpts : Byte}

variable (h v filePath algo dirHashOpts) in
/-- What the server answers to a request it has read to its end, if it comes to an answer. -/
def hashReply : Option Str :=
  (rh_computeHash_wrapper h v filePath algo dirHashOpts).map fun digest =>
    if digest = [] then errorBytes (iteratorErrno v filePath) else RESPONSE_OK :: digest

theorem iteratorErrno_bounds (v : View) (dir : Str) :
    0 < iteratorErrno v dir ∧ iteratorErrno v dir < 2^31 := by
  unfold iteratorErrno
  split_ifs
  · exact ⟨v.errno_pos dir,v.errno_lt dir⟩
  · decide

theorem digest_ne_nil (halgo : algo.toNat < rh_hash_maxAlgoIndex) (s : Str) :
    h.digest (hashLabel algo) s ≠ [] := by
  have hpos := hashSize_pos halgo
  rw [← h.length_digest algo s halgo] at hpos
  exact List.length_pos_iff.mp hpos

theorem rightReply_ok {digest : Str} : RightReply h v filePath algo dirHashOpts (RESPONSE_OK :: digest) ↔
    digest.length = hashSize algo ∧ DigestOf h v filePath algo dirHashOpts digest := by
  constructor
  · intro hright
    rcases hright with ⟨e,_,_,he⟩ | ⟨d,hlen,hd,heq⟩
    · exact absurd (List.cons.inj he).1 (by decide)
    · obtain rfl := (List.cons.inj heq).2
      exact ⟨hlen,hd⟩
  · intro hright
    exact .inr ⟨digest,hright.1,hright.2,rfl⟩

theorem DigestOf.isRead {digest : Str} (hd : DigestOf h v filePath algo dirHashOpts digest)
    (hdir : ¬ IsDirectory v filePath) : IsRead v filePath := by
  cases hd with
  | file _ hread => exact hread
  | names hdir' => exact absurd hdir' hdir
  | contents hdir' => exact absurd hdir' hdir

theorem DigestOf.readThrough {digest : Str} (hd : DigestOf h v filePath algo dirHashOpts digest)
    (hdir : IsDirectory v filePath) : ReadThrough v filePath dirHashOpts := by
  cases hd with
  | file hno => exact absurd hdir hno
  | names _ _ _ hread => exact hread
  | contents _ _ _ hread => exact hread

theorem DigestOf.room {digest : Str} (hd : DigestOf h v filePath algo dirHashOpts digest)
    (halgo : algo.toNat < rh_hash_maxAlgoIndex) (hdir : IsDirectory v filePath)
    {it : readdirIterator} (hit : dirIterator v filePath dirHashOpts = some it) :
    withNames dirHashOpts ∨ Room (hashSize algo) (filesHashed v dirHashOpts it).length := by
  cases hd with
  | file hno => exact absurd hdir hno
  | names _ _ hnames => exact .inl hnames
  | contents _ hit' hnames hread hs hsub =>
    rw [hit] at hit'
    cases hit'
    exact .inr (room_of_contents hit hnames halgo (isRead_of_readThrough hit hread) hs hsub)

theorem hashReply_file (halgo : algo.toNat < rh_hash_maxAlgoIndex) (hdir : ¬ IsDirectory v filePath) :
    (∃ reply ∈ hashReply h v filePath algo dirHashOpts, RightReply h v filePath algo dirHashOpts reply) ↔
      IsRead v filePath := by
  have hwrapper : rh_computeHash_wrapper h v filePath algo dirHashOpts =
      some (rh_computeHash h v filePath algo false [] true).returned := if_neg hdir
  rw [hashReply,hwrapper,Option.map_some]
  by_cases hread : IsRead v filePath
  · refine iff_of_true ⟨_,rfl,?_⟩ hread
    rw [computeHash_returned_read hread,if_neg (digest_ne_nil halgo _),rightReply_ok]
    exact ⟨h.length_digest algo _ halgo,.file hdir hread⟩
  · refine iff_of_false ?_ hread
    intro hsome
    obtain ⟨reply,hreply,hright⟩ := hsome
    obtain rfl := Option.some.inj hreply
    rw [computeHash_returned_unread hread,if_neg (by decide),rightReply_ok] at hright
    exact hread (hright.2.isRead hdir)

theorem hashReply_unlisted (hdir : IsDirectory v filePath)
    (hit : dirIterator v filePath dirHashOpts = none) :
    hashReply h v filePath algo dirHashOpts = some (errorBytes (iteratorErrno v filePath)) := by
  have hwrapper : rh_computeHash_wrapper h v filePath algo dirHashOpts =
      rh_computeHash_dir h v filePath algo dirHashOpts := if_pos hdir
  rw [hashReply,hwrapper,rh_computeHash_dir,dirStream,hit]
  rfl

theorem hashReply_listed (halgo : algo.toNat < rh_hash_maxAlgoIndex) (hdir : IsDirectory v filePath)
    {stream : Option Str} (hstream : dirStream h v filePath algo dirHashOpts = some stream) :
    hashReply h v filePath algo dirHashOpts =
      stream.map fun s => RESPONSE_OK :: h.digest (hashLabel algo) s := by
  have hwrapper : rh_computeHash_wrapper h v filePath algo dirHashOpts =
      rh_computeHash_dir h v filePath algo dirHashOpts := if_pos hdir
  rw [hashReply,hwrapper,rh_computeHash_dir,hstream]
  cases stream with
  | none => rfl
  | some s => exact congrArg some (if_neg (digest_ne_nil halgo s))

theorem hashReply_dir (halgo : algo.toNat < rh_hash_maxAlgoIndex) (hdir : IsDirectory v filePath)
    {it : readdirIterator} (hit : dirIterator v filePath dirHashOpts = some it) :
    (∃ reply ∈ hashReply h v filePath algo dirHashOpts, RightReply h v filePath algo dirHashOpts reply) ↔
      ReadThrough v filePath dirHashOpts ∧
        (withNames dirHashOpts ∨ Room (hashSize algo) (filesHashed v dirHashOpts it).length) := by
  constructor
  · intro hsome
    obtain ⟨reply,hreply,hright⟩ := hsome
    obtain ⟨stream,hstream⟩ : ∃ stream, dirStream h v filePath algo dirHashOpts = some stream :=
      ⟨_,by rw [dirStream,hit]; rfl⟩
    rw [hashReply_listed halgo hdir hstream] at hreply
    obtain ⟨s,_,rfl⟩ := Option.map_eq_some_iff.mp hreply
    have hdigest := (rightReply_ok.mp hright).2
    exact ⟨hdigest.readThrough hdir,hdigest.room halgo hdir hit⟩
  · intro hgood
    obtain ⟨hread,hroom⟩ := hgood
    cases hnames : withNames dirHashOpts with
    | true =>
      refine ⟨_,hashReply_listed halgo hdir (dirStream_names hit hnames),?_⟩
      exact rightReply_ok.mpr ⟨h.length_digest algo _ halgo,.names hdir hit hnames hread⟩
    | false =>
      obtain ⟨s,hs,hsub⟩ := contents_room hit hnames halgo hread
        (hroom.resolve_left (by rw [hnames]; exact Bool.false_ne_true))
      refine ⟨_,hashReply_listed halgo hdir hs,?_⟩
      exact rightReply_ok.mpr ⟨h.length_digest algo _ halgo,.contents hdir hit hnames hread hs hsub⟩

variable (h) in
theorem hashReply_iff (halgo : algo.toNat < rh_hash_maxAlgoIndex) :
    (∃ reply ∈ hashReply h v filePath algo dirHashOpts, RightReply h v filePath algo dirHashOpts reply) ↔
      Hashable v filePath algo dirHashOpts := by
  unfold Hashable
  by_cases hdir : IsDirectory v filePath
  · rw [if_pos hdir]
    cases hit : dirIterator v filePath dirHashOpts with
    | none =>
      have hbounds := iteratorErrno_bounds v filePath
      exact iff_of_true ⟨_,hashReply_unlisted hdir hit,.inl ⟨_,hbounds.1,hbounds.2,rfl⟩⟩
        fun it hmem => by cases hmem
    | some it =>
      rw [hashReply_dir halgo hdir hit]
      constructor
      · intro hgood it' hmem
        obtain rfl := Option.some.inj hmem
        exact hgood
      · exact fun hgood => hgood it rfl
  · rw [if_neg hdir]
    exact hashReply_file halgo hdir

end Reply

section Parsing

variable {src : Source ε σ} {at_ : σ → Str → Prop} {algorithm dirHashOpts : Byte} {filepath : Str}

theorem parses_hashFile (hreads : src.ReadsSome at_) (halgo : algorithm.toNat < rh_hash_maxAlgoIndex)
    (hpath : filepath.length < 65536) :
    Parses at_ (hashFile_request src) ([algorithm] ++ ([dirHashOpts] ++ stringBytes filepath))
      (.hashFile algorithm dirHashOpts (some filepath)) := by
  refine (parses_u8 hreads algorithm).bind ((parses_u8 hreads dirHashOpts).bind ?_)
  rw [if_neg (by omega)]
  exact (parses_string hreads hpath).last fun path => Received.hashFile algorithm dirHashOpts (some path)

theorem parses_hashFile_unknown (hreads : src.ReadsSome at_)
    (halgo : rh_hash_maxAlgoIndex ≤ algorithm.toNat) :
    Parses at_ (hashFile_request src) ([algorithm] ++ ([dirHashOpts] ++ []))
      (.hashFile algorithm dirHashOpts none) := by
  refine (parses_u8 hreads algorithm).bind ((parses_u8 hreads dirHashOpts).bind ?_)
  rw [if_pos halgo]
  exact parses_pure _

end Parsing

section Passed

variable {rcl : Source ε σ} {cl : Sink ε σ} {on : σ → Str → Str → Prop} {algorithm : Byte}

theorem hash_relays_error (hrelaying : Relaying rcl cl on) {e : Nat} (hpos : 0 < e) (he : e < 2^31) :
    Relays on (client_hash_response rcl cl (some algorithm)) (errorBytes e) (errorBytes e) () := by
  have hnumber : Relays on rcl.receiveBaseResponse (errorBytes e) [] e := by
    change Relays on _ ([RESPONSE_ERROR] ++ littleEndian 4 e) [] e
    refine (hrelaying.u8 RESPONSE_ERROR).after ?_
    rw [if_neg (by decide)]
    exact hrelaying.u32 (by omega)
  change Relays on _ _ ((Chunk.u8 RESPONSE_ERROR).encode ++ (Chunk.u32 e).encode) ()
  refine hnumber.afterLast ?_
  rw [if_pos (by omega)]
  exact (hrelaying.write (.u8 RESPONSE_ERROR)).then (hrelaying.write (.u32 e))

theorem hash_relays_digest (hrelaying : Relaying rcl cl on) {digest : Str}
    (hlen : digest.length = hashSize algorithm) :
    Relays on (client_hash_response rcl cl (some algorithm)) (RESPONSE_OK :: digest)
      (RESPONSE_OK :: digest) () := by
  have hresponse : Relays on rcl.receiveBaseResponse [RESPONSE_OK] [] 0 := by
    refine (hrelaying.u8 RESPONSE_OK).afterLast ?_
    rw [if_pos rfl]
    exact relays_pure 0
  change Relays on _ ([RESPONSE_OK] ++ digest) ((Chunk.u8 RESPONSE_OK).encode ++ digest) ()
  refine hresponse.after ?_
  rw [if_neg (by decide)]
  exact (hrelaying.bytes hlen).afterLast
    ((hrelaying.write (.u8 RESPONSE_OK)).then (hrelaying.write (.bytes digest)))

end Passed

/-! ### The exchange -/

section Exchanged

variable {α β γ δ : Type} {net : Network ε α β γ δ} {h : HashFunctions} {v : View} {errno : Nat}
  {crash : ε} {rq : request_type} {algorithm dirHashOpts : Byte}
  {filepath next later out buffer : Str} {s t : Ways α β γ δ}

theorem wp_hashFile (halgo : algorithm.toNat < rh_hash_maxAlgoIndex) (hpath : filepath.length < 65536)
    (ht : net.Holds t ⟨next,out,algorithm :: dirHashOpts :: (stringBytes filepath ++ later),[],[]⟩) :
    wp (hashFile net.inOutDesc h v errno crash)
      (fun _ u => ∃ reply ∈ hashReply h v filepath algorithm dirHashOpts,
        net.Holds u ⟨next,out,later,reply,[]⟩)
      (fun _ _ => hashReply h v filepath algorithm dirHashOpts = none) t := by
  have hreads := (Network.reads_toServer net ⟨next,out,[],[],[]⟩).some
  have hwrites := Network.writes_fromServer net ⟨next,out,later,[],[]⟩
  have hsplit : algorithm :: dirHashOpts :: (stringBytes filepath ++ later) =
      ([algorithm] ++ ([dirHashOpts] ++ stringBytes filepath)) ++ later := by simp
  rw [hsplit] at ht
  unfold hashFile hashReply
  refine (parses_hashFile hreads halgo hpath).before ht fun u hu => ?_
  cases hdigest : rh_computeHash_wrapper h v filepath algorithm dirHashOpts with
  | none =>
    simp only [hdigest,Option.map_none]
    exact trivial
  | some digest =>
    simp only [hdigest,Option.map_some]
    by_cases hempty : digest = []
    · rw [if_pos hempty,if_pos hempty]
      exact wp_mono (prints_error hwrites (iteratorErrno v filepath) u [] hu)
        (fun _ _ hw => ⟨_,rfl,hw⟩) fun _ _ hw => hw.elim
    · rw [if_neg hempty,if_neg hempty]
      have hok : Prints (fun w cs => net.Holds w ⟨next,out,later,cs,[]⟩)
          (net.inOutDesc.sendBaseResponse 0 0) [RESPONSE_OK] := hwrites (.u8 RESPONSE_OK)
      exact wp_mono (hok.bind (fun _ => hwrites (.bytes digest)) u [] hu)
        (fun _ _ hw => ⟨_,rfl,hw⟩) fun _ _ hw => hw.elim

theorem wp_hashFile_replies (halgo : algorithm.toNat < rh_hash_maxAlgoIndex)
    (hpath : filepath.length < 65536)
    (ht : net.Holds t ⟨next,out,algorithm :: dirHashOpts :: (stringBytes filepath ++ later),[],[]⟩)
    {reply : Str} (hreply : hashReply h v filepath algorithm dirHashOpts = some reply) :
    wp (hashFile net.inOutDesc h v errno crash)
      (fun _ u => net.Holds u ⟨next,out,later,reply,[]⟩) (fun _ _ => False) t := by
  refine wp_mono (wp_hashFile halgo hpath ht) (fun _ u hu => ?_) fun _ _ hnone => ?_
  · obtain ⟨reply',hreply',hu⟩ := hu
    rw [hreply] at hreply'
    obtain rfl := Option.some.inj hreply'
    exact hu
  · rw [hreply] at hnone
    cases hnone

theorem wp_hashFile_unknown (halgo : rh_hash_maxAlgoIndex ≤ algorithm.toNat)
    (ht : net.Holds t ⟨next,out,algorithm :: dirHashOpts :: later,[],[]⟩) :
    wp (hashFile net.inOutDesc h v errno crash)
      (fun _ u => net.Holds u ⟨next,out,later,errorBytes errno,[]⟩) (fun _ _ => False) t := by
  have hreads := (Network.reads_toServer net ⟨next,out,[],[],[]⟩).some
  unfold hashFile
  have hsplit : algorithm :: dirHashOpts :: later = ([algorithm] ++ ([dirHashOpts] ++ [])) ++ later := by
    simp
  rw [hsplit] at ht
  refine (parses_hashFile_unknown hreads halgo).before ht fun u hu => ?_
  exact prints_error (Network.writes_fromServer net ⟨next,out,later,[],[]⟩) errno u [] hu

theorem wp_client_hash_request (halgo : algorithm.toNat < rh_hash_maxAlgoIndex)
    (hpath : filepath.length < 65536)
    (hs : net.Holds s ⟨algorithm :: dirHashOpts :: (stringBytes filepath ++ next),out,[],[],buffer⟩) :
    wp (net.ends.client_hash_request errno rq) (fun a t => a = some algorithm ∧ net.Holds t
      ⟨next,out,rq.byte :: algorithm :: dirHashOpts :: stringBytes filepath,[],[]⟩)
      (fun _ _ => False) s := by
  have hreads := fun buffer => (Network.reads_fromLocal net ⟨[],out,[],[],buffer⟩).some
  have hbuffer := fun inp => Network.writes_buffer net ⟨inp,out,[],[],[]⟩
  have hsplit : algorithm :: dirHashOpts :: (stringBytes filepath ++ next) =
      [algorithm] ++ ([dirHashOpts] ++ (stringBytes filepath ++ next)) := by simp
  rw [hsplit] at hs
  unfold Ends.client_hash_request
  refine (parses_u8 (hreads buffer) algorithm).before hs fun t ht => ?_
  refine (parses_u8 (hreads buffer) dirHashOpts).before ht fun t ht => ?_
  rw [if_neg (by omega),wp_bind]
  refine Network.wp_newBuffer _ ht fun t ht => ?_
  refine (hbuffer _ (.u8 rq.byte)).before ht fun _ t ht => ?_
  refine (hbuffer _ (.u8 algorithm)).before ht fun _ t ht => ?_
  refine (hbuffer _ (.u8 dirHashOpts)).before ht fun _ t ht => ?_
  refine (parses_string (hreads _) hpath).before ht fun t ht => ?_
  refine (prints_string (hbuffer next) hpath).before ht fun _ t ht => ?_
  rw [wp_bind]
  refine wp_mono (Network.wp_flush _ ht) (fun _ t ht => ?_) fun _ _ h => h
  exact ⟨rfl,ht⟩

theorem wp_serveHash (hrq : rq.request = ACTION_HASH)
    (halgo : algorithm.toNat < rh_hash_maxAlgoIndex) (hpath : filepath.length < 65536)
    (ht : net.Holds t
      ⟨next,out,rq.byte :: algorithm :: dirHashOpts :: stringBytes filepath,[],[]⟩)
    {reply : Str} (hreply : hashReply h v filepath algorithm dirHashOpts = some reply) :
    wp (serveHash net.inOutDesc h v errno crash)
      (fun _ u => net.Passing next u reply out) (fun _ _ => False) t := by
  have hreads := (Network.reads_toServer net ⟨next,out,[],[],[]⟩).some
  have hsplit : rq.byte :: algorithm :: dirHashOpts :: stringBytes filepath =
      [rq.byte] ++ (algorithm :: dirHashOpts :: (stringBytes filepath ++ [])) := by simp
  rw [hsplit] at ht
  unfold serveHash
  refine (parses_requestType hreads rq).before ht fun u hu => ?_
  rw [if_pos hrq]
  exact wp_hashFile_replies halgo hpath hu hreply

theorem hash_exchange (hrq : rq.request = ACTION_HASH)
    (halgo : algorithm.toNat < rh_hash_maxAlgoIndex) (hpath : filepath.length < 65536)
    (hs : net.Holds s ⟨algorithm :: dirHashOpts :: (stringBytes filepath ++ next),out,[],[],buffer⟩)
    {reply : Str} (hreply : hashReply h v filepath algorithm dirHashOpts = some reply)
    (hright : RightReply h v filepath algorithm dirHashOpts reply) :
    ∃ u w, Exchange (net.ends.client_hash_request errno rq) (serveHash net.inOutDesc h v errno crash)
      (client_hash_response net.rcl.toSource net.cl.toSink) s u w ∧ net.InStep next out u w := by
  have hrelays : Relays (net.Passing next)
      (client_hash_response net.rcl.toSource net.cl.toSink (some algorithm)) reply reply () := by
    rcases hright with ⟨e,hpos,he,rfl⟩ | ⟨digest,hlen,_,rfl⟩
    · exact hash_relays_error (net.relaying next) hpos he
    · exact hash_relays_digest (net.relaying next) hlen
  obtain ⟨u,w,hex,_,hstep⟩ := exists_inStep (wp_client_hash_request halgo hpath hs)
    (fun t ht => wp_serveHash hrq halgo hpath ht hreply) hrelays
  exact ⟨u,w,hex,hstep⟩

/-- The server reads the whole request and answers it rightly, and the proxy leaves the streams in step
and passes the answer on, just when the algorithm is known and all there is can be hashed. -/
theorem hash_answered_iff (hrq : rq.request = ACTION_HASH) (hpath : filepath.length < 65536)
    (hs : net.Holds s ⟨algorithm :: dirHashOpts :: (stringBytes filepath ++ next),out,[],[],buffer⟩)
    (ht : net.Holds t ⟨next,out,algorithm :: dirHashOpts :: (stringBytes filepath ++ later),[],[]⟩) :
    ((∃ u reply, hashFile net.inOutDesc h v errno crash t = .ok () u ∧
        net.Holds u ⟨next,out,later,reply,[]⟩ ∧ RightReply h v filepath algorithm dirHashOpts reply) ∧
      ∃ u w, Exchange (net.ends.client_hash_request errno rq)
          (serveHash net.inOutDesc h v errno crash)
          (client_hash_response net.rcl.toSource net.cl.toSink) s u w ∧ net.InStep next out u w) ↔
    algorithm.toNat < rh_hash_maxAlgoIndex ∧ Hashable v filepath algorithm dirHashOpts := by
  by_cases halgo : algorithm.toNat < rh_hash_maxAlgoIndex
  · rw [← hashReply_iff h halgo]
    constructor
    · intro hgood
      obtain ⟨⟨u,reply,hrun,hu,hright⟩,_⟩ := hgood
      refine ⟨halgo,?_⟩
      obtain ⟨reply',hreply',hu'⟩ := (wp_of_ok hrun).mp (wp_hashFile halgo hpath ht)
      have hsame : reply' = reply := hu'.2.2.2.1.symm.trans hu.2.2.2.1
      exact ⟨reply,hsame ▸ hreply',hright⟩
    · intro hgood
      obtain ⟨_,reply,hreply,hright⟩ := hgood
      refine ⟨?_,hash_exchange hrq halgo hpath hs hreply hright⟩
      obtain ⟨_,u,hrun,hu⟩ := ok_of_wp (wp_hashFile_replies halgo hpath ht hreply)
      exact ⟨u,reply,hrun,hu,hright⟩
  · refine iff_of_false (fun hgood => ?_) fun hgood => halgo hgood.1
    obtain ⟨⟨u,reply,hrun,hu,_⟩,_⟩ := hgood
    have hunread := (wp_of_ok hrun).mp (wp_hashFile_unknown (by omega) ht)
    -- the length of the path at least has not been read
    have hleft : stringBytes filepath ++ later = later := hunread.2.2.1.symm.trans hu.2.2.1
    have hlen := congrArg List.length hleft
    rw [List.length_append,stringBytes,List.length_append,length_littleEndian] at hlen
    omega

end Exchanged

/-- "/x" is a file of one byte, the same letter, and nothing else is there. -/
def oneLetter : View where
  lstat s := if s = [47,120] then some ⟨.file,0o644,0,0,1,0,0,0⟩ else none
  stat s := if s = [47,120] then some ⟨.file,0o644,0,0,1,0,0,0⟩ else none
  opendir _ := none
  openRead s := if s = [47,120] then some ⟨[[120]],by decide,false⟩ else none
  username _ := none
  errno _ := 2
  errno_pos := errno_two_pos
  errno_lt := errno_two_lt
  short s ns h := by cases h

def hashRequest : request_type := ⟨ACTION_HASH,0⟩

theorem hash_answered_file :
    (∃ u reply, hashFile byteWays.inOutDesc crcHashes oneLetter 0 .crash
          ⟨[],[],0 :: 0 :: (stringBytes [47,120] ++ [9]),[],[]⟩ = .ok () u ∧
        byteWays.Holds u ⟨[],[],[9],reply,[]⟩ ∧ RightReply crcHashes oneLetter [47,120] 0 0 reply) ∧
      ∃ u w, Exchange (byteWays.ends.client_hash_request 0 hashRequest)
          (serveHash byteWays.inOutDesc crcHashes oneLetter 0 .crash)
          (client_hash_response byteWays.rcl.toSource byteWays.cl.toSink)
          ⟨0 :: 0 :: (stringBytes [47,120] ++ []),[],[],[],[]⟩ u w ∧ byteWays.InStep [] [] u w :=
  (hash_answered_iff rfl (by decide) (holds_byteWays _) ⟨rfl,rfl,rfl,rfl,rfl⟩).mpr
    ⟨by decide,⟨⟨[[120]],by decide,false⟩,rfl,rfl⟩⟩

example : hashReply crcHashes oneLetter [47,120] 0 0 = some [0x00,0x8C,0xDC,0x16,0x83] := by
  decide +kernel

/-- "/y" is not there: what is answered is OK, and one byte that is not the digest of SHA-256. -/
theorem hash_missing_file :
    (∃ u, hashFile byteWays.inOutDesc crcHashes oneLetter 0 .crash
        ⟨[],[],3 :: 0 :: (stringBytes [47,121] ++ []),[],[]⟩ = .ok () u ∧
      u.fromServer = [RESPONSE_OK,0xFF]) ∧
    ¬ ((∃ u reply, hashFile byteWays.inOutDesc crcHashes oneLetter 0 .crash
          ⟨[],[],3 :: 0 :: (stringBytes [47,121] ++ []),[],[]⟩ = .ok () u ∧
        byteWays.Holds u ⟨[],[],[],reply,[]⟩ ∧ RightReply crcHashes oneLetter [47,121] 3 0 reply) ∧
      ∃ u w, Exchange (byteWays.ends.client_hash_request 0 hashRequest)
          (serveHash byteWays.inOutDesc crcHashes oneLetter 0 .crash)
          (client_hash_response byteWays.rcl.toSource byteWays.cl.toSink)
          ⟨3 :: 0 :: (stringBytes [47,121] ++ []),[],[],[],[]⟩ u w ∧ byteWays.InStep [] [] u w) := by
  have hreply : hashReply crcHashes oneLetter [47,121] 3 0 = some [RESPONSE_OK,0xFF] := by
    decide +kernel
  have hstart : byteWays.Holds ⟨[],[],3 :: 0 :: (stringBytes [47,121] ++ []),[],[]⟩
      ⟨[],[],3 :: 0 :: (stringBytes [47,121] ++ []),[],[]⟩ := ⟨rfl,rfl,rfl,rfl,rfl⟩
  obtain ⟨_,u,hrun,hu⟩ := ok_of_wp (@wp_hashFile_replies Stop Str Str Str Str byteWays crcHashes
    oneLetter 0 .crash 3 0 [47,121] [] [] [] _ (by decide) (by decide) hstart _ hreply)
  have hanswer : u.fromServer = [RESPONSE_OK,0xFF] := hu.2.2.2.1
  refine ⟨⟨u,hrun,hanswer⟩,fun hgood => ?_⟩
  obtain ⟨⟨u',reply,hrun',hu',hright⟩,_⟩ := hgood
  rw [hrun] at hrun'
  cases hrun'
  have hsame : reply = [RESPONSE_OK,0xFF] := hu'.2.2.2.1.symm.trans hanswer
  rw [hsame,rightReply_ok] at hright
  exact absurd hright.1 (by decide)

end RootHelper
