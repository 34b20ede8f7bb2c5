import RootHelper.PathUtils
import RootHelper.Protocol
import RootHelper.Sequences.Search

/-!
Downloading over HTTP into memory: reads are put together until there is a blank line, the rest is
the body. The connection is what its reads give in turn.
-/

set_option autoImplicit false

namespace RootHelper
open Posix Sequences

def isspace (b : Byte) : Bool := b = 32 ∨ (9 ≤ b ∧ b ≤ 13)

def isdigit (b : Byte) : Bool := 48 ≤ b ∧ b ≤ 57

def decimal (s : Str) : Nat := (s.takeWhile isdigit).foldl (fun n b => 10 * n + (b.toNat - 48)) 0

/-- To the base of ten, in 64 bits; what is too large is cut to what fits. -/
def strtol (s : Str) : Int :=
  match s.dropWhile isspace with
  | 45 :: s => max (- decimal s) (-2^63)
  | 43 :: s => min (decimal s) (2^63-1)
  | s => min (decimal s) (2^63-1)

def toupper (b : Byte) : Byte := if 97 ≤ b ∧ b ≤ 122 then b - 32 else b

/-- `std::string::find`. -/
def findString (strHaystack strNeedle : Str) : Option Nat := search (· == ·) strNeedle strHaystack

def findStringIC (strHaystack strNeedle : Str) : Option Nat :=
  search (fun ch1 ch2 => toupper ch1 == toupper ch2) strNeedle strHaystack

def crlf : Str := [13,10]
def blankLine : Str := crlf ++ crlf

inductive RuntimeError where
  | headerTooLarge
  | noCRLF
  | noFirstSpace
  | noSecondSpace
  | noCRAfterContentLength
  deriving DecidableEq, Repr

def orThrow {α : Type} (e : RuntimeError) : Option α → Except RuntimeError α
  | none => .error e
  | some a => .ok a

/-- An `int` has 32 bits. -/
def parseResponseCode (responseHeaders : Str) : Except RuntimeError Int := do
  let tmpIdx ← orThrow .noCRLF (findString responseHeaders crlf)
  let firstLine := responseHeaders.take tmpIdx
  let tmpIdx ← orThrow .noFirstSpace (findString firstLine [32])
  let firstLine := firstLine.drop (tmpIdx+1)
  let tmpIdx ← orThrow .noSecondSpace (findString firstLine [32])
  pure ((strtol (firstLine.take tmpIdx)).bmod (2^32))

def contentLengthPattern : Str :=
  text ['C','o','n','t','e','n','t','-','L','e','n','g','t','h',':',' ']

def parseContentLength (responseHeaders : Str) : Except RuntimeError Nat :=
  match findStringIC responseHeaders contentLengthPattern with
  | none => pure maxuint
  | some contentLengthIdx => do
    let after := responseHeaders.drop (contentLengthIdx + contentLengthPattern.length)
    let crIdx ← orThrow .noCRAfterContentLength (findString after [13])
    pure (strtol (after.take crIdx) % 2^64).toNat

/-- The first group of the expression in a line, the number `sscanf` reads in hexadecimal if it reads
one, and what the variable for it holds before. -/
structure HttpLibrary where
  regexGroup : Str → Str
  scanHex : Str → Option UInt32
  unset : UInt32

variable (lib : HttpLibrary)

def urlDecode : UInt32 → Str → Str
  | _, [] => []
  | ii, c :: str =>
    if c ≠ 37 then (if c = 43 then 32 else c) :: urlDecode ii str
    else
      let ii := (lib.scanHex (str.take 2)).getD ii
      ii.toUInt8 :: urlDecode ii (str.drop 2)
termination_by _ str => str.length
decreasing_by all_goals simp only [List.length_drop,List.length_cons]; omega

def rtrim (s : Str) : Str :=
  (s.reverse.dropWhile fun b => b = 32 ∨ b = 13 ∨ b = 10 ∨ b = 9).reverse

def noSlashes (s : Str) : Str := s.map fun b => if b = slash then 95 else b

def cdPrefix : Str :=
  text ['C','o','n','t','e','n','t','-','D','i','s','p','o','s','i','t','i','o','n',':',' ']

/-- From the first line with the prefix; what is behind "=" where the expression finds nothing. -/
def contentDispName (hdrs : Str) : Option Str := do
  let line ← (hdrs.splitOn 10).find? fun line => findStringIC line cdPrefix = some 0
  let z := lib.regexGroup line
  if z ≠ [] then pure (rtrim (noSlashes z))
  else do
    let rawIdx ← findString line [61]
    pure (rtrim (noSlashes (line.drop (rawIdx+1))))

def urlName (url : Str) : Option Str := do
  let idx ← lastSlash url
  let y := noSlashes ((urlDecode lib lib.unset (url.drop (idx+1))).takeWhile (· ≠ 63))
  if y = [] then none else pure y

def domainName (url : Str) : Option Str :=
  let x := url.takeWhile (· ≠ slash)
  if slash ∈ url ∧ x ≠ [] then some (x ++ text ['.','h','t','m','l']) else none

def getHttpFilename (hdrs url : Str) : Str :=
  ((contentDispName lib hdrs).or ((urlName lib url).or (domainName url))).getD
    (text ['f','i','l','e','.','b','i','n'])

/-- The reads of a connection, each of 4096 bytes at most, up to the one that gives none. -/
structure Arrival where
  reads : List Str
  bounded : ∀ r ∈ reads, 1 ≤ r.length ∧ r.length ≤ 4096
  graceful : Bool

def Arrival.content (desc : Arrival) : Str := desc.reads.flatten

def Arrival.last (desc : Arrival) : Int := if desc.graceful then 0 else -1

structure HTTPSClient where
  responseHeaders : Str
  responseBody : Str
  currentUrl : Str
  detectedFilename : Str
  deriving DecidableEq, Repr

/-- As `request` prepares it. -/
def HTTPSClient.reset (currentUrl detectedFilename : Str) : HTTPSClient :=
  ⟨[],[],currentUrl,detectedFilename⟩

/-- The headers, the beginning of the body and the reads that are left; nothing when the reads come
to an end. -/
def getResponseHeadersAndPartOfBody (bb : Str) (headersCurrentSize : Nat) :
    List Str → Except RuntimeError (Option (Str × Str × List Str))
  | [] => pure none
  | buffer :: reads =>
    let bb := bb ++ buffer
    let headersCurrentSize := (headersCurrentSize + buffer.length) % 2^32
    if 1048576 < headersCurrentSize then throw .headerTooLarge
    else
      match findString bb blankLine with
      | some headersEndIdx =>
        pure (some (bb.take (headersEndIdx+4),bb.drop (headersEndIdx+4),reads))
      | none => getResponseHeadersAndPartOfBody bb headersCurrentSize reads

def downloadBody : Str → Nat → List Str → Str × Nat
  | responseBody, currentProgress, [] => (responseBody,currentProgress)
  | responseBody, currentProgress, buf :: reads =>
    downloadBody (responseBody ++ buf) ((currentProgress + buf.length) % 2^64) reads

/-- Whether all has come, as far as can be told. -/
def downloadCompleted (parsedContentLength currentProgress : Nat) (readBytes : Int) : Bool :=
  if parsedContentLength ≠ maxuint then currentProgress = parsedContentLength else readBytes = 0

def HTTPSClient.parseResponseHeadersAndDownloadBody (client : HTTPSClient) (desc : Arrival) :
    Except RuntimeError (Int × HTTPSClient) := do
  match ← getResponseHeadersAndPartOfBody [] 0 desc.reads with
  | none => pure (-1,client)
  | some (responseHeaders,tmpBody,reads) => do
    let client := { client with responseHeaders, responseBody := client.responseBody ++ tmpBody }
    let httpRet ← parseResponseCode responseHeaders
    if httpRet = 301 ∨ httpRet = 302 then pure (httpRet,client)
    else do
      let client := { client with detectedFilename := getHttpFilename lib responseHeaders client.currentUrl }
      let parsedContentLength ← parseContentLength responseHeaders
      let (responseBody,currentProgress) := downloadBody client.responseBody (tmpBody.length % 2^64) reads
      let completed := downloadCompleted parsedContentLength currentProgress desc.last
      pure (if completed then httpRet else -1,{ client with responseBody })

section Cut

theorem length_blankLine : blankLine.length = 4 := rfl

theorem getResponseHeadersAndPartOfBody_eq {response bb : Str} {i : Nat} {reads : List Str}
    (hwhole : bb ++ reads.flatten = response) (hfind : findString response blankLine = some i)
    (hsize : i + 4 ≤ 1044480) (hbb : bb.length < i + 4) (hbounded : ∀ r ∈ reads, r.length ≤ 4096) :
    ∃ tmpBody rest, getResponseHeadersAndPartOfBody bb bb.length reads =
        .ok (some (response.take (i+4),tmpBody,rest)) ∧
      tmpBody ++ rest.flatten = response.drop (i+4) := by
  induction reads generalizing bb with
  | nil =>
    have hbound := search_bound hfind
    rw [length_blankLine,← hwhole] at hbound
    simp only [List.flatten_nil,List.append_nil] at hbound
    omega
  | cons buffer reads ih =>
    have hlen := hbounded buffer (List.mem_cons_self ..)
    have hnew : (bb ++ buffer).length = bb.length + buffer.length := List.length_append
    have hwhole' : (bb ++ buffer) ++ reads.flatten = response := by simpa using hwhole
    have hmod : (bb.length + buffer.length) % 2^32 = bb.length + buffer.length :=
      Nat.mod_eq_of_lt (by omega)
    unfold getResponseHeadersAndPartOfBody
    simp only [hmod]
    rw [if_neg (by omega)]
    by_cases hthere : i + 4 ≤ (bb ++ buffer).length
    · have hfind' : findString ((bb ++ buffer) ++ reads.flatten) blankLine = some i := by
        rw [hwhole']
        exact hfind
      have hfound : findString (bb ++ buffer) blankLine = some i := search_of_append hfind' hthere
      rw [hfound]
      refine ⟨(bb ++ buffer).drop (i+4),reads,?_,?_⟩
      · rw [← hwhole',List.take_append_of_le_length hthere]
        rfl
      · rw [← hwhole',List.drop_append_of_le_length hthere]
    · have hnone : findString (bb ++ buffer) blankLine = none := by
        cases hfound : findString (bb ++ buffer) blankLine with
        | none => rfl
        | some k =>
          have hlonger : findString (bb ++ buffer ++ reads.flatten) blankLine = some k :=
            search_append hfound
          rw [hwhole',hfind] at hlonger
          obtain rfl := Option.some.inj hlonger
          exact absurd (search_bound hfound) hthere
      rw [hnone,← hnew]
      exact ih hwhole' (by omega) fun r hr => hbounded r (List.mem_cons_of_mem _ hr)

theorem downloadBody_eq (responseBody : Str) (n : Nat) (reads : List Str) :
    downloadBody responseBody (n % 2^64) reads =
      (responseBody ++ reads.flatten,(n + reads.flatten.length) % 2^64) := by
  induction reads generalizing responseBody n with
  | nil => simp [downloadBody]
  | cons buf reads ih =>
    rw [downloadBody,Nat.mod_add_mod,ih]
    simp [Nat.add_assoc]

theorem parseContentLength_ok {headers : Str} (hends : blankLine <:+ headers) :
    ∃ parsedContentLength, parseContentLength headers = .ok parsedContentLength := by
  unfold parseContentLength
  cases hfind : findStringIC headers contentLengthPattern with
  | none => exact ⟨_,rfl⟩
  | some k =>
    obtain ⟨pre,rfl⟩ := hends
    have hspace : ∃ b, (pre ++ blankLine)[k+15]? = some b ∧ toupper b = 32 := by
      obtain ⟨b,hb,hsame⟩ := heads_at (search_heads hfind)
        (show contentLengthPattern[15]? = some 32 from rfl)
      rw [List.getElem?_drop] at hb
      exact ⟨b,hb,eq_of_beq hsame⟩
    obtain ⟨b,hb,hupper⟩ := hspace
    -- the space of the pattern stands before the blank line
    have hbefore : k + 15 < pre.length := by
      by_contra hge
      rw [List.getElem?_append_right (by omega)] at hb
      have hmem : b ∈ blankLine := List.mem_of_getElem? hb
      have hnot : ∀ b ∈ blankLine, toupper b ≠ 32 := by simp [blankLine,crlf,toupper]
      exact hnot b hmem hupper
    have hlen : contentLengthPattern.length = 16 := rfl
    have hmem : (13 : Byte) ∈ (pre ++ blankLine).drop (k + contentLengthPattern.length) := by
      rw [List.drop_append_of_le_length (by omega)]
      exact List.mem_append_right _ (by decide)
    cases hcr : findString ((pre ++ blankLine).drop (k + contentLengthPattern.length)) [13] with
    | none =>
      have hinfix := (List.singleton_infix_iff _ _).mpr hmem
      exact absurd hinfix (search_eq_none.mp hcr)
    | some crIdx =>
      simp only [hcr]
      exact ⟨_,rfl⟩

variable {lib} {headers body : Str} {status : Int} {parsedContentLength : Nat}

theorem download_eq (hends : blankLine <:+ headers) (hfirst : ¬ blankLine <:+: headers.dropLast)
    (hsize : headers.length ≤ 1044480) (hstatus : parseResponseCode headers = .ok status)
    (hredirect : ¬ (status = 301 ∨ status = 302))
    (hlength : parseContentLength headers = .ok parsedContentLength) (client : HTTPSClient)
    (desc : Arrival) (hdesc : desc.content = headers ++ body) :
    client.parseResponseHeadersAndDownloadBody lib desc = .ok
      (if downloadCompleted parsedContentLength (body.length % 2^64) desc.last then status else -1,
        { client with
          responseHeaders := headers
          responseBody := client.responseBody ++ body
          detectedFilename := getHttpFilename lib headers client.currentUrl }) := by
  obtain ⟨pre,rfl⟩ := hends
  have hlen : (pre ++ blankLine).length = pre.length + 4 := List.length_append
  have hfind : findString (pre ++ blankLine ++ body) blankLine = some pre.length :=
    search_first (by decide) hfirst
  have hcontent : [] ++ desc.reads.flatten = pre ++ blankLine ++ body := hdesc
  obtain ⟨tmpBody,rest,hheaders,hrest⟩ := getResponseHeadersAndPartOfBody_eq hcontent hfind (by omega)
    (by simp) fun r hr => (desc.bounded r hr).2
  rw [← hlen,List.take_left] at hheaders
  rw [← hlen,List.drop_left] at hrest
  simp only [HTTPSClient.parseResponseHeadersAndDownloadBody]
  rw [show ([] : Str).length = 0 from rfl] at hheaders
  rw [hheaders]
  simp only [bind,Except.bind,hstatus,hlength,if_neg hredirect,downloadBody_eq,
    List.append_assoc,hrest,← List.length_append]
  rfl

end Cut

/-- The headers end with the first blank line. The body's size is counted in 64 bits. -/
theorem download_split {lib : HttpLibrary} {headers body url name : Str} {status : Int}
    (hends : blankLine <:+ headers) (hfirst : ¬ blankLine <:+: headers.dropLast)
    (hsize : headers.length ≤ 1044480) (hstatus : parseResponseCode headers = .ok status)
    (hredirect : ¬ (status = 301 ∨ status = 302)) (desc : Arrival)
    (hdesc : desc.content = headers ++ body) :
    ∃ parsedContentLength code client,
      parseContentLength headers = .ok parsedContentLength ∧
      (HTTPSClient.reset url name).parseResponseHeadersAndDownloadBody lib desc = .ok (code,client) ∧
      client.responseHeaders = headers ∧ client.responseBody = body ∧
      (code = 200 ↔ status = 200 ∧
        (parsedContentLength ≠ maxuint ∧ parsedContentLength = body.length % 2^64 ∨
          parsedContentLength = maxuint ∧ desc.graceful = true)) ∧
      ∀ other : Arrival, other.content = desc.content → other.graceful = desc.graceful →
        (HTTPSClient.reset url name).parseResponseHeadersAndDownloadBody lib other =
          (HTTPSClient.reset url name).parseResponseHeadersAndDownloadBody lib desc := by
  obtain ⟨parsedContentLength,hlength⟩ := parseContentLength_ok hends
  have hrun := @download_eq lib headers body status parsedContentLength hends hfirst hsize hstatus
    hredirect hlength (HTTPSClient.reset url name)
  refine ⟨parsedContentLength,_,_,hlength,hrun desc hdesc,rfl,rfl,?_,fun other hcontent hend => ?_⟩
  · have hcompleted : downloadCompleted parsedContentLength (body.length % 2^64) desc.last = true ↔
        parsedContentLength ≠ maxuint ∧ parsedContentLength = body.length % 2^64 ∨
          parsedContentLength = maxuint ∧ desc.graceful = true := by
      unfold downloadCompleted Arrival.last
      by_cases hknown : parsedContentLength = maxuint
      · rw [if_neg (not_not.mpr hknown)]
        cases desc.graceful <;> simp [hknown]
      · rw [if_pos hknown,decide_eq_true_eq]
        constructor
        · exact fun h => .inl ⟨hknown,h.symm⟩
        · rintro (⟨_,h⟩ | ⟨h,_⟩)
          · exact h.symm
          · exact absurd h hknown
    rw [← hcompleted]
    split_ifs with hdone
    · exact ⟨fun h => ⟨h,hdone⟩,fun h => h.1⟩
    · exact ⟨fun h => absurd h (by decide),fun h => absurd h.2 hdone⟩
  · rw [hrun other (hcontent.trans hdesc),hrun desc hdesc,Arrival.last,Arrival.last,hend]

/-- The blank line is cut in two. -/
theorem download_split_ok : ∃ client,
    (HTTPSClient.reset [] []).parseResponseHeadersAndDownloadBody ⟨fun _ => [],fun _ => none,0⟩
        ⟨[text ['H','T','T','P','/','1','.','0',' ','2','0','0',' ','O','K','\r','\n','\r'],
          text ['\n','x']],by decide,true⟩ = .ok (200,client) ∧
      client.responseBody = text ['x'] := by
  let headers := text ['H','T','T','P','/','1','.','0',' ','2','0','0',' ','O','K','\r','\n','\r','\n']
  obtain ⟨parsedContentLength,code,client,hlength,hrun,_,hbody,hcode,_⟩ :=
    @download_split ⟨fun _ => [],fun _ => none,0⟩ headers (text ['x']) [] [] 200 (by decide) (by decide)
      (by decide) (by decide) (by decide)
      ⟨[text ['H','T','T','P','/','1','.','0',' ','2','0','0',' ','O','K','\r','\n','\r'],
        text ['\n','x']],by decide,true⟩ rfl
  have hnone : parseContentLength headers = .ok maxuint := by decide
  obtain rfl := Except.ok.inj (hlength.symm.trans hnone)
  obtain rfl := hcode.mpr ⟨rfl,.inr ⟨rfl,rfl⟩⟩
  exact ⟨client,hrun,hbody⟩

end RootHelper
