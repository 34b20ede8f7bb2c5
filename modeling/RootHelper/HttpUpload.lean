import RootHelper.FileStreams
import RootHelper.FolderStats
import RootHelper.FreeNames
import RootHelper.HeaderFields
import RootHelper.HttpForwarding
import RootHelper.RemoteSessions
import RootHelper.Sequences.Pieces

/-!
A file that is posted to a web server: the request with its length before it, the form around the content,
and what the local client is told on the way.
-/

set_option autoImplicit false

namespace RootHelper
open Posix Control Sequences

def dashes : Str := text ['-','-']

def dispositionLabel : Str :=
  text ['C','o','n','t','e','n','t','-','D','i','s','p','o','s','i','t','i','o','n',':',' ','f','o','r','m',
    '-','d','a','t','a',';',' ','n','a','m','e','=','"','f','i','l','e','"',';',' ','f','i','l','e','n','a',
    'm','e','=','"']

def octetStream : Str :=
  text ['C','o','n','t','e','n','t','-','T','y','p','e',':',' ','a','p','p','l','i','c','a','t','i','o','n',
    '/','o','c','t','e','t','-','s','t','r','e','a','m']

def bodyHeader (filename BOUNDARY : Str) : Str :=
  List.flatten [dashes,BOUNDARY,crlf,dispositionLabel,filename,[34],crlf,octetStream,crlf,crlf]

def bodyTrailer (BOUNDARY : Str) : Str := List.flatten [crlf,dashes,BOUNDARY,dashes,crlf,crlf]

def postLine : Str := text ['P','O','S','T',' ','/',' ','H','T','T','P','/','1','.','1']
def hostLabel : Str := text ['H','o','s','t',':',' ']

def userAgent : Str :=
  text ['U','s','e','r','-','A','g','e','n','t',':',' ','X','F','i','l','e','s','H','T','T','P','C','l','i',
    'e','n','t','/','1','.','0','.','0']

def acceptAll : Str := text ['A','c','c','e','p','t',':',' ','*','/','*']
def connectionClose : Str :=
  text ['C','o','n','n','e','c','t','i','o','n',':',' ','c','l','o','s','e']

def boundaryLabel : Str :=
  text ['C','o','n','t','e','n','t','-','T','y','p','e',':',' ','m','u','l','t','i','p','a','r','t','/','f',
    'o','r','m','-','d','a','t','a',';',' ','b','o','u','n','d','a','r','y','=']

def postHeader (domainOnly : Str) (wrappedBodyLen : Nat) (BOUNDARY : Str) : Str :=
  List.flatten [postLine,crlf,hostLabel,domainOnly,crlf,contentLengthPattern,toStr wrappedBodyLen,crlf,
    userAgent,crlf,acceptAll,crlf,connectionClose,crlf,boundaryLabel,BOUNDARY,crlf,crlf]

def UPLOAD_CHUNK_SIZE : Nat := REMOTE_IO_CHUNK_SIZE / 4

section Model

variable (sys : System)

/-- What is sent of the file; one that could not be opened cannot be read, either. -/
def postContent (fileToUpload : Except Errno Path) (fsize : Nat) : TransferM Unit :=
  match fileToUpload with
  | .ok input => uploadChunks sys true input (chunks UPLOAD_CHUNK_SIZE fsize) 0
  | .error _ => if fsize = 0 then pure () else throw .threadExit

/-- From the first line of the request to the last of the form. -/
def postForm (domainOnly fname BOUNDARY : Str) (fileToUpload : Except Errno Path) (fsize : Nat) :
    TransferM Unit := do
  let bh := bodyHeader fname BOUNDARY
  let bt := bodyTrailer BOUNDARY
  let wrappedBodyLen := (bh.length + fsize + bt.length) % 2^64
  networkDesc.writeAllOrExit (.bytes (postHeader domainOnly wrappedBodyLen BOUNDARY))
  networkDesc.writeAllOrExit (.bytes bh)
  postContent sys fileToUpload fsize
  networkDesc.writeAllOrExit (.bytes bt)

/-- What is done to post the file at `fname`, up to the end of the upload. -/
def postFile (domainOnly fname BOUNDARY : Str) : TransferM Unit := do
  let fsize ← Transfer.withDisk (osGetSize sys fname)
  tell true (.u64 fsize)
  let fileToUpload ← Transfer.withDisk (sys.openRead fname)
  Transfer.rewind
  postForm sys domainOnly fname BOUNDARY fileToUpload fsize
  tell true (.u64 maxuint)

def LocalWrite.chunk : LocalWrite → Chunk
  | .endOfRedirects => .u8 0x11
  | .filename tmp_ => .bytes (stringBytes tmp_)
  | .totalSize actualContentLength => .u64 actualContentLength
  | .content buf => .bytes buf
  | .progress currentProgress => .u64 currentProgress

def forwardAll : List LocalWrite → TransferM Unit
  | [] => pure ()
  | c :: local_fd => do
    tell true c.chunk
    forwardAll local_fd

def dp1 : Str := text ['/','t','m','p','/']
def tfl : Str := text ['o','u','t','_','x','0','a','t','.','t','x','t']

/-- Without a connection that has been set up there is no hash. The answer is passed on to the client and
not kept in a file. -/
def httpsUrlUpload_internal (lib : HttpLibrary) (sharedHash : Option Str) (BOUNDARY : Str)
    (reply : Arrival) (domainOnly sourcePathForUpload : Str) : TransferM Int :=
  match sharedHash with
  | none => do
    let u ← get
    clDesc.sendBaseResponse (-1) u.disk.errno
    pure (-1)
  | some sharedHash => do
    clDesc.sendBaseResponse 0 0
    let written ← Transfer.clPart.run (writeOnce sharedHash)
    -- a failed write is not noticed: the result is compared as an unsigned number
    if (written % 2^64).toNat < sharedHash.length then throw .threadExit
    else attempt (do
      postFile sys domainOnly sourcePathForUpload BOUNDARY
      match parseHttpResponseHeadersAndBody lib (fun _ => false) dp1 tfl (domainOnly ++ [slash]) false true
          reply with
      | .ok answer => do
        forwardAll answer.local_fd
        pure answer.httpRet
      | .error _ => throw .threadExit) fun _ => pure (-1)

end Model

/-! ### Reading the request -/

def behindLabel (label line : Str) : Option Str :=
  if label <+: line then some (line.drop label.length) else none

/-- The name and the content of the one file in a posted form. The lines of the request give the length
of what is behind them and the boundary; the content is up to the first delimiter. -/
def readPost (request : Str) : Option (Str × Str) := do
  let (lines,body) ← readPieces crlf (request.length+1) request
  let length ← lines.findSome? (behindLabel contentLengthPattern)
  let BOUNDARY ← lines.findSome? (behindLabel boundaryLabel)
  let (part,rest) ← readPieces crlf (body.length+1) body
  let disposition ← part.findSome? (behindLabel dispositionLabel)
  let delimiter := crlf ++ (dashes ++ BOUNDARY)
  let k ← search (· == ·) delimiter rest
  if decimal length = body.length ∧ part.head? = some (dashes ++ BOUNDARY) ∧
      rest.drop (k + delimiter.length) = dashes ++ (crlf ++ crlf) then
    some (disposition.takeWhile (· ≠ 34),rest.take k)
  else none

/-- The request with this file in it. -/
def postRequest (domainOnly fname BOUNDARY content : Str) : Str :=
  postHeader domainOnly (((bodyHeader fname BOUNDARY).length + content.length +
    (bodyTrailer BOUNDARY).length) % 2^64) BOUNDARY ++
    (bodyHeader fname BOUNDARY ++ (content ++ bodyTrailer BOUNDARY))

section Reading

theorem avoids_crlf {s : Str} : Avoids crlf s ↔ OneLine s := by
  constructor
  · exact fun h => ⟨fun h13 => h 13 h13 (by decide),fun h10 => h 10 h10 (by decide)⟩
  · intro h b hb hmem
    rcases List.mem_cons.mp hmem with rfl | hmem
    · exact h.1 hb
    · obtain rfl := List.mem_singleton.mp hmem
      exact h.2 hb

theorem OneLine.append {s t : Str} (hs : OneLine s) (ht : OneLine t) : OneLine (s ++ t) :=
  ⟨fun h => (List.mem_append.mp h).elim hs.1 ht.1,fun h => (List.mem_append.mp h).elim hs.2 ht.2⟩

theorem oneLine_toStr (n : Nat) : OneLine (toStr n) := by
  constructor <;> intro h <;> have := toStr_digit h <;> simp at this

theorem decimal_toStr (n : Nat) : decimal (toStr n) = n := by
  have hall : (toStr n).takeWhile isdigit = toStr n := by
    refine List.takeWhile_eq_self_iff.mpr fun b hb => ?_
    have hrange := toStr_digit hb
    simpa [isdigit,UInt8.le_iff_toNat_le] using hrange
  have hfold : (toStr n).foldl (fun k b => 10 * k + (b.toNat - 48)) 0 =
      (Nat.toDigits 10 n).foldl (fun k c => 10 * k + (c.toNat - '0'.toNat)) 0 := by
    rw [toStr,text,List.foldl_map]
    refine List.foldl_ext _ _ 0 fun k c hc => ?_
    rw [(toNat_digit hc).1]
    rfl
  rw [decimal,hall,hfold,← Nat.ofDigitChars_eq_foldl]
  exact Nat.ofDigitChars_ten_toDigits

theorem behindLabel_append (label line : Str) : behindLabel label (label ++ line) = some line := by
  rw [behindLabel,if_pos (List.prefix_append _ _),List.drop_left]

variable {domainOnly fname BOUNDARY content : Str}

theorem postHeader_lines (n : Nat) : postHeader domainOnly n BOUNDARY = joinPieces crlf
    [postLine,hostLabel ++ domainOnly,contentLengthPattern ++ toStr n,userAgent,acceptAll,connectionClose,
      boundaryLabel ++ BOUNDARY] := by
  simp [postHeader,joinPieces]

theorem bodyHeader_lines : bodyHeader fname BOUNDARY = joinPieces crlf
    [dashes ++ BOUNDARY,dispositionLabel ++ (fname ++ [34]),octetStream] := by
  simp [bodyHeader,joinPieces]

theorem bodyTrailer_delimiter :
    bodyTrailer BOUNDARY = crlf ++ (dashes ++ BOUNDARY) ++ (dashes ++ (crlf ++ crlf)) := by
  simp [bodyTrailer]

theorem behindLabel_apart {label head line : Str} (h : ¬ label <+: head) (h' : ¬ head <+: label) :
    behindLabel label (head ++ line) = none := by
  refine if_neg fun hpre => ?_
  rcases List.prefix_or_prefix_of_prefix hpre (List.prefix_append head line) with hle | hle
  · exact h hle
  · exact h' hle

theorem pieces_postHeader (hdomain : OneLine domainOnly) (hboundary : OneLine BOUNDARY) (n : Nat) :
    ∀ piece ∈ [postLine,hostLabel ++ domainOnly,contentLengthPattern ++ toStr n,userAgent,acceptAll,
      connectionClose,boundaryLabel ++ BOUNDARY], piece ≠ [] ∧ Avoids crlf piece := by
  simp only [List.forall_mem_cons,avoids_crlf]
  refine ⟨⟨by decide,by decide⟩,⟨by simp [hostLabel,text],.append (by decide) hdomain⟩,
    ⟨by simp [contentLengthPattern,text],.append (by decide) (oneLine_toStr n)⟩,⟨by decide,by decide⟩,
    ⟨by decide,by decide⟩,⟨by decide,by decide⟩,
    ⟨by simp [boundaryLabel,text],.append (by decide) hboundary⟩,fun _ h => by cases h⟩

theorem pieces_bodyHeader (hname : OneLine fname) (hboundary : OneLine BOUNDARY) :
    ∀ piece ∈ [dashes ++ BOUNDARY,dispositionLabel ++ (fname ++ [34]),octetStream],
      piece ≠ [] ∧ Avoids crlf piece := by
  simp only [List.forall_mem_cons,avoids_crlf]
  refine ⟨⟨by simp [dashes,text],.append (by decide) hboundary⟩,
    ⟨by simp [dispositionLabel,text],.append (by decide) (.append hname (by decide))⟩,
    ⟨by decide,by decide⟩,fun _ h => by cases h⟩

/-- A reader gets the file's name and its content back, when the delimiter does not come any sooner. -/
theorem readPost_postRequest (hdomain : OneLine domainOnly) (hname : OneLine fname) (hquote : 34 ∉ fname)
    (hboundary : OneLine BOUNDARY) (hfits : (bodyHeader fname BOUNDARY).length + content.length +
      (bodyTrailer BOUNDARY).length < 2^64)
    (hfirst : ¬ crlf ++ (dashes ++ BOUNDARY) <:+: (content ++ (crlf ++ (dashes ++ BOUNDARY))).dropLast) :
    readPost (postRequest domainOnly fname BOUNDARY content) = some (fname,content) := by
  let n := ((bodyHeader fname BOUNDARY).length + content.length + (bodyTrailer BOUNDARY).length) % 2^64
  let lines := [postLine,hostLabel ++ domainOnly,contentLengthPattern ++ toStr n,userAgent,acceptAll,
    connectionClose,boundaryLabel ++ BOUNDARY]
  let part := [dashes ++ BOUNDARY,dispositionLabel ++ (fname ++ [34]),octetStream]
  let body := bodyHeader fname BOUNDARY ++ (content ++ bodyTrailer BOUNDARY)
  have hrequest : postRequest domainOnly fname BOUNDARY content = joinPieces crlf lines ++ body := by
    rw [postRequest,postHeader_lines]
  have hread : readPieces crlf ((joinPieces crlf lines ++ body).length+1) (joinPieces crlf lines ++ body) =
      some (lines,body) := by
    refine readPieces_join (by decide) (pieces_postHeader hdomain hboundary n) ?_ body
    simp [lines,joinPieces,postLine,text]
  have hpart : readPieces crlf (body.length+1) body = some (part,content ++ bodyTrailer BOUNDARY) := by
    have hbody : body = joinPieces crlf part ++ (content ++ bodyTrailer BOUNDARY) := by
      rw [← bodyHeader_lines]
    rw [hbody]
    refine readPieces_join (by decide) (pieces_bodyHeader hname hboundary) ?_ _
    simp [part,joinPieces,octetStream,text]
    omega
  have hlength : lines.findSome? (behindLabel contentLengthPattern) = some (toStr n) := by
    have hpost : behindLabel contentLengthPattern postLine = none := by decide
    have hhost := @behindLabel_apart contentLengthPattern hostLabel domainOnly (by decide) (by decide)
    simp only [lines,List.findSome?_cons,hpost,hhost,behindLabel_append]
  have hbound : lines.findSome? (behindLabel boundaryLabel) = some BOUNDARY := by
    have hpost : behindLabel boundaryLabel postLine = none := by decide
    have hhost := @behindLabel_apart boundaryLabel hostLabel domainOnly (by decide) (by decide)
    have hsize := @behindLabel_apart boundaryLabel contentLengthPattern (toStr n) (by decide) (by decide)
    have hagent : behindLabel boundaryLabel userAgent = none := by decide
    have haccept : behindLabel boundaryLabel acceptAll = none := by decide
    have hclose : behindLabel boundaryLabel connectionClose = none := by decide
    simp only [lines,List.findSome?_cons,hpost,hhost,hsize,hagent,haccept,hclose,behindLabel_append]
  have hdisposition : part.findSome? (behindLabel dispositionLabel) = some (fname ++ [34]) := by
    have hdelimiter := @behindLabel_apart dispositionLabel dashes BOUNDARY (by decide) (by decide)
    simp only [part,List.findSome?_cons,hdelimiter,behindLabel_append]
  have hcut : (fname ++ [34]).takeWhile (fun b => decide (b ≠ 34)) = fname := by
    have hall : ∀ b ∈ fname, decide (b ≠ 34) = true := fun b hb =>
      decide_eq_true fun he => hquote (he ▸ hb)
    rw [List.takeWhile_append_of_pos hall]
    simp
  have hbehind : content ++ bodyTrailer BOUNDARY =
      content ++ (crlf ++ (dashes ++ BOUNDARY)) ++ (dashes ++ (crlf ++ crlf)) := by
    simp [bodyTrailer_delimiter]
  have hsearch : search (· == ·) (crlf ++ (dashes ++ BOUNDARY)) (content ++ bodyTrailer BOUNDARY) =
      some content.length := by
    rw [hbehind]
    exact search_first (by simp [crlf]) hfirst
  have hrest : (content ++ bodyTrailer BOUNDARY).drop
      (content.length + (crlf ++ (dashes ++ BOUNDARY)).length) = dashes ++ (crlf ++ crlf) := by
    rw [hbehind,← List.length_append,List.drop_left]
  have hcount : n = body.length := by
    simp only [n,body,List.length_append]
    rw [Nat.mod_eq_of_lt hfits,Nat.add_assoc]
  rw [hrequest,readPost,hread]
  simp only [Option.bind_eq_bind,Option.bind_some,hlength,hbound,hpart,hdisposition,hsearch]
  rw [if_pos ⟨by rw [decimal_toStr,hcount],rfl,hrest⟩,hcut,List.take_left]

end Reading

/-! ### Sending it -/

/-- The size that is told of a file, and is put into the request. -/
def announcedFileSize (k : Kernel) (fs : FileSystem) (filepath : Str) : Nat :=
  match Kernel.nodeAt fs (k.glance fs filepath) with
  | .ok n => nodeSize n
  | .error _ => 0

/-- What has been read of an open file. -/
def readSoFar (input : Path) (f : Disk × Nat) : Str :=
  match f.1.fs.node input with
  | some (.file bytes _) => bytes.take f.2
  | _ => []

/-- The open file and the file system stay as they are. -/
def SameFile (u u' : Transfer) : Prop := u'.disk = u.disk ∧ u'.offset = u.offset

section Sending

variable {sys : System} {α β : Type}

theorem readEffect_prefix {fs : FileSystem} {amount : Int} {input : Path} {off count : Nat} {bytes : Str}
    {ch : Option Change} (h : Kernel.readEffect amount input off count fs = .ok (bytes,ch)) :
    ch = none ∧ ∃ content mode, fs.node input = some (.file content mode) ∧ bytes <+: content.drop off := by
  unfold Kernel.readEffect at h
  split at h
  · rename_i content mode hnode
    split at h
    · simp at h
    · obtain ⟨hbytes,hch⟩ := Prod.mk.inj (Except.ok.inj h)
      refine ⟨hch.symm,content,mode,hnode,?_⟩
      rw [← hbytes]
      exact (List.take_prefix _ _).trans (List.take_prefix _ _)
  · simp at h
  · simp at h

theorem inputFile_gives (input : Path) : (inputFile sys input).Gives (readSoFar input) where
  read count f := by
    simp only [inputFile,wp_bind,wp_get,wp_run,System.read,Lens.fst_get,Lens.fst_set]
    refine System.wp_perform (fun e => ?_) fun bytes ch hread => ?_
    · rw [wp_pure,if_pos (by decide),List.append_nil]
      rfl
    · simp only [wp_bind,wp_modify,wp_pure]
      obtain ⟨rfl,content,mode,hnode,hpre⟩ := readEffect_prefix hread
      have hsome : (if (bytes.length : Int) ≤ 0 then [] else bytes) = bytes := by
        split
        · exact (List.length_eq_zero_iff.mp (by omega)).symm
        · rfl
      rw [hsome]
      change readSoFar input (_,f.2 + bytes.length) = readSoFar input f ++ bytes
      have hsame : (f.1.done ⟨.read input,none⟩).fs.node input = some (.file content mode) := hnode
      simp only [readSoFar,hnode,hsame]
      rw [List.take_add,← List.prefix_iff_eq_take.mp hpre]
  write _ := moves_pure _
  close := moves_pure _

theorem Moves.readAllOrExit {ε σ : Type} {R : σ → σ → Prop} [Std.Refl R] [IsTrans σ R]
    {d : Descriptor ε σ} (hread : ∀ count, Moves R (d.read count)) (hclose : Moves R d.close)
    (count : Nat) : Moves R (d.readAllOrExit count) := by
  have loop : ∀ turns remaining buf, Moves R (d.readAllLoop count turns remaining buf) := by
    intro turns
    induction turns with
    | zero => exact fun _ _ => moves_throw _
    | succ turns ih =>
      intro remaining buf
      refine (hread remaining).bind fun _ => Moves.ite (moves_pure _) ?_
      exact Moves.ite (moves_pure _) (ih _ _)
  refine (loop _ _ _).bind fun _ => Moves.ite ?_ (moves_pure _)
  exact hclose.bind fun _ => moves_throw _

theorem wp_posts (s : Str) (u : Transfer) : wp (networkDesc.writeAllOrExit (.bytes s))
    (fun _ u' => After u u' s [] ∧ SameFile u u') (fun _ _ => True) u := by
  have hsame : Moves SameFile (networkDesc.writeAllOrExit (.bytes s)) :=
    Moves.run (T := fun _ _ => True) (fun _ => wp_trivial (fun _ _ => trivial) fun _ _ => trivial)
      fun _ _ _ => ⟨rfl,rfl⟩
  refine wp_mono (wp_and (emits_network (.bytes s) u) (hsame u)) (fun _ u' h => ?_) fun _ _ _ => trivial
  obtain ⟨⟨_,_,⟨hsent,htold⟩,hafter⟩,hfile⟩ := h
  rw [hsent,htold] at hafter
  exact ⟨hafter,hfile⟩

theorem wp_local_tells (n : Nat) (u : Transfer) : wp (tell true (.u64 n))
    (fun _ u' => After u u' [] [n] ∧ SameFile u u') (fun _ _ => True) u := by
  have hsame : Moves SameFile (tell true (.u64 n)) :=
    Moves.run (T := fun _ _ => True) (fun _ => wp_trivial (fun _ _ => trivial) fun _ _ => trivial)
      fun _ _ _ => ⟨rfl,rfl⟩
  refine wp_mono (wp_and (emits_tell n u) (hsame u)) (fun _ u' h => ?_) fun _ _ _ => trivial
  obtain ⟨⟨_,_,⟨hsent,htold⟩,hafter⟩,hfile⟩ := h
  rw [hsent,htold] at hafter
  exact ⟨hafter,hfile⟩

/-- What is read of the file is what is sent. -/
def PassedBody (input : Path) (u u' : Transfer) (sent : Str) : Prop :=
  u'.disk.fs = u.disk.fs ∧
    readSoFar input (u'.disk,u'.offset) = readSoFar input (u.disk,u.offset) ++ sent

theorem wp_copiedChunk (input : Path) (n : Nat) (u : Transfer) :
    wp (Transfer.filePart.run ((inputFile sys input).readAllOrExit n)) (fun v u' => v.length = n ∧
      PassedBody input u u' v) (fun _ _ => True) u := by
  let R : Disk × Nat → Disk × Nat → Prop := fun f f' => f'.1.fs = f.1.fs
  have hrefl : Std.Refl R := ⟨fun _ => rfl⟩
  have htrans : IsTrans (Disk × Nat) R := ⟨fun _ _ _ h h' => Eq.trans h' h⟩
  have hread : ∀ count, Moves R ((inputFile sys input).read count) := by
    intro count f
    simp only [Leaves,inputFile,wp_bind,wp_get,wp_run,System.read,Lens.fst_get,Lens.fst_set]
    refine System.wp_perform (fun e => rfl) fun bytes ch heffect => ?_
    obtain ⟨rfl,_⟩ := readEffect_prefix heffect
    rfl
  have hkept : Moves R ((inputFile sys input).readAllOrExit n) :=
    Moves.readAllOrExit hread (moves_pure _) n
  rw [wp_run]
  have hgives := (@inputFile_gives sys input).readAllOrExit n (u.disk,u.offset)
  have hcount := (@inputFile_honest sys input).readAllOrExit n (u.disk,u.offset)
  exact wp_mono (wp_and (hkept (u.disk,u.offset)) (wp_and hgives hcount))
    (fun v f hv => ⟨hv.2.2,hv.1,hv.2.1⟩) fun _ _ _ => trivial

/-- However the pieces are cut, they are the next part of the file, and each is told when it has been
sent. -/
theorem wp_copiedChunks (input : Path) (l : List Nat) (cur : Nat) (u : Transfer) :
    wp (uploadChunks sys true input l cur) (fun _ u' => ∃ sent, sent.length = l.sum ∧
      After u u' sent (cumulative l cur) ∧ PassedBody input u u' sent) (fun _ _ => True) u := by
  induction l generalizing cur u with
  | nil => exact ⟨[],rfl,AddsUp.none u,rfl,(List.append_nil _).symm⟩
  | cons n l ih =>
    rw [uploadChunks,wp_bind]
    refine wp_mono (wp_and (offWire_file _ u) (wp_copiedChunk input n u)) (fun v u₁ h₁ => ?_) fun _ _ _ => trivial
    obtain ⟨haside,hv,hcopied⟩ := h₁
    rw [wp_bind]
    refine wp_mono (wp_posts v u₁) (fun _ u₂ h₂ => ?_) fun _ _ h => h
    obtain ⟨hsent,hdisk₂,hoffset₂⟩ := h₂
    rw [wp_bind]
    refine wp_mono (wp_local_tells (cur + n) u₂) (fun _ u₃ h₃ => ?_) fun _ _ h => h
    obtain ⟨htold,hdisk₃,hoffset₃⟩ := h₃
    refine wp_mono (ih (cur + n) u₃) (fun _ u₄ h₄ => ?_) fun _ _ h => h
    obtain ⟨sent,hlen,hafter,hrest⟩ := h₄
    have hwhole : After u u₃ v [cur + n] := by
      simpa using AddsUp.both (R := After) haside.after (AddsUp.both hsent htold)
    refine ⟨v ++ sent,?_,AddsUp.both hwhole hafter,?_,?_⟩
    · rw [List.length_append,hv,hlen,List.sum_cons]
    · rw [hrest.1,hdisk₃,hdisk₂]
      exact hcopied.1
    · rw [hrest.2,hdisk₃,hoffset₃,hdisk₂,hoffset₂,hcopied.2,List.append_assoc]

theorem PassedBody.begins {input : Path} {u u' : Transfer} {sent : Str} (h : PassedBody input u u' sent)
    (hoffset : u.offset = 0) : sent = [] ∨
      ∃ bytes mode, u.disk.fs.node input = some (.file bytes mode) ∧ sent <+: bytes := by
  obtain ⟨hfs,hread⟩ := h
  unfold readSoFar at hread
  simp only [hfs,hoffset] at hread
  split at hread
  · rename_i bytes mode hnode
    rw [List.take_zero,List.nil_append] at hread
    exact .inr ⟨bytes,mode,hnode,hread ▸ List.take_prefix _ _⟩
  · rename_i hno
    left
    cases hnode : u.disk.fs.node input with
    | none => simpa [hnode] using hread.symm
    | some n =>
      cases n with
      | file bytes mode => exact absurd hnode (hno bytes mode)
      | dir mode => simpa [hnode] using hread.symm
      | link target => simpa [hnode] using hread.symm

/-- What the request has of the file: as much as was announced, from its beginning. -/
def Posted (sys : System) (fs : FileSystem) (fname content : Str) : Prop :=
  content.length = announcedFileSize sys.toKernel fs fname ∧ (content = [] ∨ ∃ input bytes mode,
    sys.follow fs fname = .ok input ∧ fs.node input = some (.file bytes mode) ∧ content <+: bytes)

theorem wp_osGetSize (filepath : Str) (u : Transfer) :
    wp (Transfer.withDisk (osGetSize sys filepath)) (fun fsize u' => OffWire u u' ∧ u'.cl = u.cl ∧
      u'.disk.fs = u.disk.fs ∧ fsize = announcedFileSize sys.toKernel u.disk.fs filepath)
      (fun _ _ => True) u := by
  rw [Transfer.withDisk,wp_run,osGetSize,wp_bind,System.lstat,System.wp_look]
  change System.settled _ u.disk _ (sys.lstatEffect filepath u.disk.fs)
  unfold announcedFileSize Kernel.lstatEffect
  cases Kernel.nodeAt u.disk.fs (sys.glance u.disk.fs filepath) with
  | error e => exact ⟨⟨rfl,rfl⟩,rfl,rfl,rfl⟩
  | ok n => exact ⟨⟨rfl,rfl⟩,rfl,rfl,rfl⟩

/-- The size that is asked for on the disk is the one the calls on a file system that stays would give. -/
theorem announcedFileSize_answers (k : Kernel) (fs : FileSystem) (readable : Str → Bool)
    (filepath : Str) : UInt64.ofNat (announcedFileSize k fs filepath) =
      Metadata.osGetSize (k.answers fs readable) filepath := by
  have hanswer : (k.answers fs readable).lstat filepath =
      (Kernel.nodeAt fs (k.glance fs filepath)).toOption.map Node.stat := rfl
  rw [Metadata.osGetSize,hanswer]
  unfold announcedFileSize
  cases Kernel.nodeAt fs (k.glance fs filepath) with
  | error e => rfl
  | ok n => cases n <;> rfl

/-- What is sent of an opened file is its beginning. -/
def BeginsOf (fs : FileSystem) (fileToUpload : Except Errno Path) (content : Str) : Prop :=
  content = [] ∨ ∃ input bytes mode, fileToUpload = .ok input ∧ fs.node input = some (.file bytes mode) ∧
    content <+: bytes

theorem wp_postContent (fileToUpload : Except Errno Path) (fsize : Nat) {u : Transfer}
    (hoffset : u.offset = 0) : wp (postContent sys fileToUpload fsize) (fun _ u' => ∃ content : Str,
      content.length = fsize ∧ After u u' content (cumulative (chunks UPLOAD_CHUNK_SIZE fsize) 0) ∧
      BeginsOf u.disk.fs fileToUpload content) (fun _ _ => True) u := by
  cases fileToUpload with
  | ok input =>
    refine wp_mono (wp_copiedChunks input (chunks UPLOAD_CHUNK_SIZE fsize) 0 u) (fun _ u' h => ?_)
      fun _ _ h => h
    obtain ⟨sent,hlen,hafter,hcopied⟩ := h
    rw [sum_chunks] at hlen
    refine ⟨sent,hlen,hafter,(hcopied.begins hoffset).imp_right fun h => ?_⟩
    obtain ⟨bytes,mode,hnode,hpre⟩ := h
    exact ⟨input,bytes,mode,rfl,hnode,hpre⟩
  | error e =>
    rw [postContent]
    split
    · rename_i hzero
      rw [hzero]
      exact ⟨[],rfl,AddsUp.none u,.inl rfl⟩
    · trivial

theorem wp_postForm (domainOnly fname BOUNDARY : Str) (fileToUpload : Except Errno Path) (fsize : Nat)
    {u : Transfer} (hoffset : u.offset = 0) :
    wp (postForm sys domainOnly fname BOUNDARY fileToUpload fsize) (fun _ u' => ∃ content : Str,
      content.length = fsize ∧ After u u' (postRequest domainOnly fname BOUNDARY content)
        (cumulative (chunks UPLOAD_CHUNK_SIZE fsize) 0) ∧
      BeginsOf u.disk.fs fileToUpload content) (fun _ _ => True) u := by
  rw [postForm,wp_bind]
  refine wp_mono (wp_posts _ u) (fun _ u₁ h₁ => ?_) fun _ _ h => h
  obtain ⟨hheader,hdisk₁,hoffset₁⟩ := h₁
  rw [wp_bind]
  refine wp_mono (wp_posts _ u₁) (fun _ u₂ h₂ => ?_) fun _ _ h => h
  obtain ⟨hform,hdisk₂,hoffset₂⟩ := h₂
  rw [wp_bind]
  refine wp_mono (wp_postContent fileToUpload fsize (hoffset₂.trans (hoffset₁.trans hoffset)))
    (fun _ u₃ h₃ => ?_) fun _ _ h => h
  obtain ⟨content,hlen,hcontent,hbegins⟩ := h₃
  refine wp_mono (wp_posts _ u₃) (fun _ u₄ h₄ => ?_) fun _ _ h => h
  refine ⟨content,hlen,?_,by rwa [hdisk₂,hdisk₁] at hbegins⟩
  have hall := AddsUp.both (R := After) hheader (AddsUp.both hform (AddsUp.both hcontent h₄.1))
  rw [List.append_nil,List.nil_append,List.nil_append] at hall
  rwa [postRequest,hlen]

theorem wp_postFile (domainOnly fname BOUNDARY : Str) (u : Transfer) :
    wp (postFile sys domainOnly fname BOUNDARY) (fun _ u' => ∃ content : Str,
      Posted sys u.disk.fs fname content ∧ After u u' (postRequest domainOnly fname BOUNDARY content)
        (content.length :: (cumulative (chunks UPLOAD_CHUNK_SIZE content.length) 0 ++ [maxuint])))
      (fun _ _ => True) u := by
  rw [postFile,wp_bind]
  refine wp_mono (wp_osGetSize fname u) (fun fsize u₁ h₁ => ?_) fun _ _ h => h
  obtain ⟨haside,_,hfs₁,hsize⟩ := h₁
  rw [wp_bind]
  refine wp_mono (wp_local_tells fsize u₁) (fun _ u₂ h₂ => ?_) fun _ _ h => h
  obtain ⟨htold,hdisk₂,_⟩ := h₂
  have hfs₂ : u₂.disk.fs = u.disk.fs := by rw [hdisk₂,hfs₁]
  -- whichever way opening the file goes
  have hform : ∀ (fileToUpload : Except Errno Path) (u₃ : Transfer), u₃.offset = 0 →
      u₃.disk.fs = u.disk.fs → OffWire u₂ u₃ → (∀ input, fileToUpload = .ok input →
        sys.follow u.disk.fs fname = .ok input) → wp (do
      postForm sys domainOnly fname BOUNDARY fileToUpload fsize
      tell true (.u64 maxuint)) (fun _ u' => ∃ content : Str,
      Posted sys u.disk.fs fname content ∧ After u u' (postRequest domainOnly fname BOUNDARY content)
        (content.length :: (cumulative (chunks UPLOAD_CHUNK_SIZE content.length) 0 ++ [maxuint])))
      (fun _ _ => True) u₃ := by
    intro fileToUpload u₃ hoffset hfs₃ haside₃ hopened
    rw [wp_bind]
    refine wp_mono (wp_postForm domainOnly fname BOUNDARY fileToUpload fsize hoffset) (fun _ u₄ h₄ => ?_)
      fun _ _ h => h
    obtain ⟨content,hlen,hsent,hbegins⟩ := h₄
    refine wp_mono (wp_local_tells maxuint u₄) (fun _ u₅ h₅ => ?_) fun _ _ h => h
    refine ⟨content,⟨hlen.trans hsize,hbegins.imp_right fun hb => ?_⟩,?_⟩
    · obtain ⟨input,bytes,mode,hok,hnode,hpre⟩ := hb
      exact ⟨input,bytes,mode,hopened input hok,hfs₃ ▸ hnode,hpre⟩
    · have hall := AddsUp.both (R := After) haside.after (AddsUp.both htold
        (AddsUp.both haside₃.after (AddsUp.both hsent h₅.1)))
      simp only [List.nil_append,List.append_nil,List.singleton_append] at hall
      rwa [hlen]
  rw [wp_bind,Transfer.withDisk,wp_run]
  refine System.wp_perform (fun e => ?_) fun input ch hopen => ?_
  · rw [wp_bind,Transfer.rewind,wp_modify]
    exact hform (.error e) _ rfl hfs₂ ⟨rfl,rfl⟩ fun _ h => by cases h
  · obtain ⟨rfl,hfollow,_⟩ := System.openReadEffect_ok hopen
    rw [wp_bind,Transfer.rewind,wp_modify]
    refine hform (.ok input) _ rfl hfs₂ ⟨rfl,rfl⟩ fun _ h => ?_
    obtain rfl := Except.ok.inj h
    rwa [← hfs₂]

/-- What only the local client gets. -/
def ToClient (u u' : Transfer) (told : Str) : Prop :=
  u'.cl.bytes = u.cl.bytes ++ told ∧ u'.rcl.bytes = u.rcl.bytes ∧ u'.disk = u.disk

theorem wp_toClient (c : Chunk) (u : Transfer) :
    wp (clDesc.writeAllOrExit c) (fun _ u' => ToClient u u' c.encode) (fun _ _ => True) u := by
  change wp (Transfer.clPart.run (writeAllOrExit c)) _ _ u
  rw [wp_run]
  exact wp_mono (wp_sends c u.cl) (fun _ k hk => ⟨hk,rfl,rfl⟩) fun _ _ h => h

theorem wp_writesOnce (buf : Str) (u : Transfer) : wp (Transfer.clPart.run (writeOnce buf))
    (fun _ u' => ToClient u u' buf ∨ u' = u ∧ ¬ u.cl.takes 1) (fun _ _ => False) u := by
  rw [wp_run,writeOnce,wp_bind,wp_get]
  split
  · rename_i hfull
    refine .inr ⟨rfl,fun htakes => hfull.elim (fun hclosed => ?_) fun hroom => ?_⟩
    · exact absurd (htakes.1.symm.trans hclosed) (by decide)
    · exact absurd (htakes.2 0 hroom) (by decide)
  · simp only [wp_bind,wp_set,wp_pure]
    exact .inl ⟨by simp [Transfer.clPart,Conn.bytes,Chunk.encode],rfl,rfl⟩

theorem shut_postFile (domainOnly fname BOUNDARY : Str) {u : Transfer} (hshut : ¬ u.cl.takes 1) :
    wp (postFile sys domainOnly fname BOUNDARY) (fun _ _ => False) (fun _ _ => True) u := by
  rw [postFile,wp_bind]
  refine wp_mono (wp_osGetSize fname u) (fun fsize u₁ h₁ => ?_) fun _ _ h => h
  rw [← h₁.2.1] at hshut
  rw [wp_bind]
  change wp (Transfer.clPart.run (writeAllOrExit (.u64 fsize))) _ _ u₁
  rw [wp_run,wp_writeAllOrExit_iff (by simp [Chunk.encode,littleEndian])]
  exact ⟨fun htakes => absurd htakes hshut,fun _ => trivial⟩

theorem wp_forwardAll (local_fd : List LocalWrite) (u : Transfer) :
    wp (forwardAll local_fd) (fun _ u' => ToClient u u' (local_fd.flatMap fun c => c.chunk.encode))
      (fun _ _ => True) u := by
  induction local_fd generalizing u with
  | nil => exact ⟨(List.append_nil _).symm,rfl,rfl⟩
  | cons c local_fd ih =>
    rw [forwardAll,wp_bind]
    refine wp_mono (wp_toClient c.chunk u) (fun _ u₁ h₁ => ?_) fun _ _ h => h
    refine wp_mono (ih u₁) (fun _ u₂ h₂ => ?_) fun _ _ h => h
    refine ⟨?_,h₂.2.1.trans h₁.2.1,h₂.2.2.trans h₁.2.2⟩
    rw [h₂.1,h₁.1,List.append_assoc]
    rfl

/-- What has passed from `u` to `u'` in an upload that was answered. -/
structure Uploaded (sys : System) (lib : HttpLibrary) (sharedHash : Str) (reply : Arrival)
    (domainOnly fname BOUNDARY : Str) (httpRet : Int) (u u' : Transfer) (content request : Str)
    (answer : Forwarded) : Prop where
  posted : Posted sys u.disk.fs fname content
  sent : u'.rcl.bytes = u.rcl.bytes ++ request
  readable : (bodyHeader fname BOUNDARY).length + content.length + (bodyTrailer BOUNDARY).length < 2^64 →
    ¬ crlf ++ (dashes ++ BOUNDARY) <:+: (content ++ (crlf ++ (dashes ++ BOUNDARY))).dropLast →
    readPost request = some (fname,content)
  answered : parseHttpResponseHeadersAndBody lib (fun _ => false) dp1 tfl (domainOnly ++ [slash]) false true
    reply = .ok answer
  status : answer.httpRet = httpRet
  told : u'.cl.bytes = u.cl.bytes ++ ([RESPONSE_OK] ++ (sharedHash ++ (numberBytes (content.length ::
    (cumulative (chunks UPLOAD_CHUNK_SIZE content.length) 0 ++ [maxuint])) ++
    answer.local_fd.flatMap fun c => c.chunk.encode)))

theorem wp_httpsUrlUpload (lib : HttpLibrary) (sharedHash : Str) (reply : Arrival)
    {domainOnly fname BOUNDARY : Str} (hdomain : OneLine domainOnly) (hname : OneLine fname)
    (hquote : 34 ∉ fname) (hboundary : OneLine BOUNDARY) (u : Transfer) :
    wp (httpsUrlUpload_internal sys lib (some sharedHash) BOUNDARY reply domainOnly fname)
      (fun httpRet u' => httpRet ≠ -1 → ∃ content request answer,
        Uploaded sys lib sharedHash reply domainOnly fname BOUNDARY httpRet u u' content request answer)
      (fun _ _ => True) u := by
  rw [httpsUrlUpload_internal,wp_bind]
  refine wp_mono (wp_toClient (.u8 RESPONSE_OK) u) (fun _ u₁ h₁ => ?_) fun _ _ h => h
  rw [wp_bind]
  refine wp_mono (wp_writesOnce sharedHash u₁) (fun written u₂ h₂ => ?_) fun _ _ h => h.elim
  split
  · trivial
  · rw [wp_attempt,wp_bind]
    rcases h₂ with hhash | ⟨rfl,hshut⟩
    swap
    · exact wp_mono (shut_postFile domainOnly fname BOUNDARY hshut) (fun _ _ h => h.elim)
        fun _ _ _ hne => absurd rfl hne
    have hfs : u₂.disk.fs = u.disk.fs := by rw [hhash.2.2,h₁.2.2]
    refine wp_mono (wp_postFile domainOnly fname BOUNDARY u₂) (fun _ u₃ h₃ => ?_)
      fun _ _ _ hne => absurd rfl hne
    obtain ⟨content,hposted,hsent,htold⟩ := h₃
    rw [hfs] at hposted
    cases hanswer : parseHttpResponseHeadersAndBody lib (fun _ => false) dp1 tfl (domainOnly ++ [slash]) false
        true reply with
    | error e => exact fun hne => absurd rfl hne
    | ok answer =>
      dsimp only
      rw [wp_bind]
      refine wp_mono (wp_forwardAll answer.local_fd u₃) (fun _ u₄ h₄ => ?_) fun _ _ _ hne => absurd rfl hne
      refine fun _ => ⟨content,_,answer,hposted,?_,readPost_postRequest hdomain hname hquote hboundary,hanswer,
        rfl,?_⟩
      · rw [h₄.2.1,hsent,hhash.2.1,h₁.2.1]
      · rw [h₄.1,htold,hhash.1,h₁.1]
        simp [Chunk.encode]

/-- Whatever the system and the server do: an upload that gives the status of an answer has sent a request
from which a reader gets the name and all the announced bytes of the file, when the delimiter does not come
in them; the local client has been told of the session, of how much has been sent and of the answer. -/
theorem http_upload_posts (lib : HttpLibrary) (sharedHash : Str) (reply : Arrival)
    {domainOnly fname BOUNDARY : Str} (hdomain : OneLine domainOnly) (hname : OneLine fname)
    (hquote : 34 ∉ fname) (hboundary : OneLine BOUNDARY) {u u' : Transfer} {httpRet : Int}
    (hrun : httpsUrlUpload_internal sys lib (some sharedHash) BOUNDARY reply domainOnly fname u =
      .ok httpRet u') (hret : httpRet ≠ -1) : ∃ content request answer,
      Uploaded sys lib sharedHash reply domainOnly fname BOUNDARY httpRet u u' content request answer := by
  have hposts := @wp_httpsUrlUpload sys lib sharedHash reply _ _ _ hdomain hname hquote hboundary u
  rw [wp_of_ok hrun] at hposts
  exact hposts hret

end Sending

/-- The file of one byte in the small tree is to be uploaded. -/
def uploadsByte : Transfer := ⟨⟨smallTree,[],0,0⟩,0,⟨[],[],none,false⟩,⟨[],[],none,false⟩⟩

def endsWith (status : Int) : EStateM.Result Stop Transfer Int → Bool
  | .ok httpRet _ => httpRet = status
  | .error _ _ => false

/-- "x0.at" and "/a/x"; a link of one letter is the answer. -/
theorem http_upload_posts_byte : ∃ httpRet u' content request answer, httpRet = 200 ∧
    Uploaded .calm noLibrary [1,2] sized (text ['x','0','.','a','t']) (text ['/','a','/','x']) (text ['b'])
      httpRet uploadsByte u' content request answer := by
  have hruns : endsWith 200 (httpsUrlUpload_internal .calm noLibrary (some [1,2]) (text ['b']) sized
      (text ['x','0','.','a','t']) (text ['/','a','/','x']) uploadsByte) = true := by decide +kernel
  cases hrun : httpsUrlUpload_internal .calm noLibrary (some [1,2]) (text ['b']) sized
      (text ['x','0','.','a','t']) (text ['/','a','/','x']) uploadsByte with
  | error e u' =>
    rw [hrun] at hruns
    cases hruns
  | ok httpRet u' =>
    rw [hrun] at hruns
    have hret : httpRet = 200 := of_decide_eq_true hruns
    obtain ⟨content,request,answer,hposts⟩ := http_upload_posts noLibrary [1,2] sized (by decide) (by decide)
      (by decide) (by decide) hrun (by rw [hret]; decide)
    exact ⟨httpRet,u',content,request,answer,hret,hposts⟩

end RootHelper
