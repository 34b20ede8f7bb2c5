import RootHelper.HttpDownload

/-!
A download that is passed on to the local client: what `parseHttpResponseHeadersAndBody` writes to the
local socket while it reads the response. A write that fails there ends the thread.
-/

set_option autoImplicit false

namespace RootHelper
open Posix Sequences

inductive LocalWrite where
  | endOfRedirects
  | filename (tmp_ : Str)
  | totalSize (actualContentLength : Nat)
  | content (buf : Str)
  | progress (currentProgress : Nat)
  deriving DecidableEq, Repr

structure Forwarded where
  httpRet : Int
  hdrs : Str
  local_fd : List LocalWrite
  /-- What the file gets, if there is one. -/
  file : Str
  deriving DecidableEq, Repr

/-- The reads behind the headers: the writes and the progress. Progress is told to the client when the
body goes to a file. -/
def forwardBody (downloadToFile : Bool) : Nat → Nat → List Str → List LocalWrite × Nat
  | currentProgress, _, [] => ([],currentProgress)
  | currentProgress, last_progress, buf :: reads =>
    let currentProgress := (currentProgress + buf.length) % 2^64
    let tell := 1000000 < (currentProgress + (2^64 - last_progress)) % 2^64
    let (writes,final) := forwardBody downloadToFile currentProgress
      (if tell then currentProgress else last_progress) reads
    let written :=
      if downloadToFile then (if tell then [.progress currentProgress] else []) else [.content buf]
    (written ++ writes,final)

section Download

variable (lib : HttpLibrary) (opens : Str → Bool) (downloadPath targetFilename url : Str)
  (downloadToFile isDownloadAfterHttpUpload : Bool)

/-- `opens` tells which files can be opened for writing. -/
def parseHttpResponseHeadersAndBody (rcl : Arrival) : Except RuntimeError Forwarded := do
  match ← getResponseHeadersAndPartOfBody [] 0 rcl.reads with
  | none => pure ⟨-1,[],[],[]⟩
  | some (hdrs,tmpbody,reads) => do
    let httpRet ← parseResponseCode hdrs
    if httpRet ≠ 200 then pure ⟨httpRet,hdrs,[],[]⟩
    else do
      let httpFilename := if targetFilename = [] then getHttpFilename lib hdrs url else targetFilename
      let destFullPath := if downloadPath = [] then httpFilename else downloadPath ++ slash :: httpFilename
      if downloadToFile ∧ ¬ opens destFullPath then pure ⟨-1,hdrs,[.endOfRedirects],[]⟩
      else do
        let parsedContentLength ← parseContentLength hdrs
        -- without a length, all bytes are assumed to have come with the headers
        let actualContentLength :=
          if parsedContentLength = maxuint ∧ isDownloadAfterHttpUpload then tmpbody.length
          else parsedContentLength
        let announced := [.endOfRedirects,.filename httpFilename,.totalSize actualContentLength]
        let first := if downloadToFile then [] else [.content tmpbody]
        let (writes,currentProgress) := forwardBody downloadToFile tmpbody.length 0 reads
        let file := if downloadToFile then tmpbody ++ reads.flatten else []
        if downloadCompleted parsedContentLength currentProgress rcl.last then
          let last := if downloadToFile then [.progress maxuint] else []
          pure ⟨httpRet,hdrs,announced ++ first ++ writes ++ last,file⟩
        else pure ⟨-1,hdrs,announced ++ first ++ writes,file⟩

end Download

def LocalWrite.announced : LocalWrite → Option Nat
  | .totalSize actualContentLength => some actualContentLength
  | _ => none

def LocalWrite.bodyBytes : LocalWrite → Str
  | .content buf => buf
  | _ => []

def announcedSize (local_fd : List LocalWrite) : Option Nat := local_fd.findSome? LocalWrite.announced

def sentBody (local_fd : List LocalWrite) : Str := local_fd.flatMap LocalWrite.bodyBytes

section Headers

variable {bb h t headers body : Str} {reads rest : List Str} {n : Nat} {desc : Arrival}

/-- The loop stops at the read with which the blank line is complete. -/
theorem getResponseHeadersAndPartOfBody_some
    (h' : getResponseHeadersAndPartOfBody bb n reads = .ok (some (h,t,rest)))
    (hbb : findString bb blankLine = none) :
    ∃ before r, reads = before ++ r :: rest ∧ h ++ t = bb ++ (before ++ [r]).flatten ∧
      findString (h ++ t) blankLine = some (h.length - 4) ∧ 4 ≤ h.length ∧
      findString (bb ++ before.flatten) blankLine = none := by
  induction reads generalizing bb n with
  | nil => cases h'
  | cons buffer reads ih =>
    simp only [getResponseHeadersAndPartOfBody] at h'
    split at h'
    · cases h'
    cases hfind : findString (bb ++ buffer) blankLine with
    | some i =>
      simp only [hfind] at h'
      have hbound := search_bound hfind
      rw [length_blankLine] at hbound
      obtain ⟨rfl,rfl,rfl⟩ : (bb ++ buffer).take (i+4) = h ∧ (bb ++ buffer).drop (i+4) = t ∧ reads = rest := by
        cases h'
        exact ⟨rfl,rfl,rfl⟩
      refine ⟨[],buffer,rfl,?_,?_,?_,by simpa using hbb⟩
      · rw [List.take_append_drop]
        simp
      · rw [List.take_append_drop,hfind,List.length_take]
        congr 1
        omega
      · rw [List.length_take]
        omega
    | none =>
      simp only [hfind] at h'
      obtain ⟨before,r,rfl,heq,hthere,hlen,hnone⟩ := ih h' hfind
      refine ⟨buffer :: before,r,rfl,?_,hthere,hlen,?_⟩
      · rw [heq]
        simp
      · simpa using hnone

theorem getResponseHeadersAndPartOfBody_small
    (h' : getResponseHeadersAndPartOfBody bb n reads = .ok (some (h,t,rest))) (hn : n = bb.length)
    (hbb : bb.length ≤ 1048576) (hbounded : ∀ r ∈ reads, r.length ≤ 4096) :
    (h ++ t).length ≤ 1048576 := by
  induction reads generalizing bb n with
  | nil => cases h'
  | cons buffer reads ih =>
    have hlen := hbounded buffer (List.mem_cons_self ..)
    have hnew : (bb ++ buffer).length = bb.length + buffer.length := List.length_append
    have hmod : (bb.length + buffer.length) % 2^32 = bb.length + buffer.length :=
      Nat.mod_eq_of_lt (by omega)
    simp only [getResponseHeadersAndPartOfBody,hn,hmod] at h'
    split at h'
    · cases h'
    cases hfind : findString (bb ++ buffer) blankLine with
    | some i =>
      simp only [hfind] at h'
      obtain ⟨rfl,rfl⟩ : (bb ++ buffer).take (i+4) = h ∧ (bb ++ buffer).drop (i+4) = t := by
        cases h'
        exact ⟨rfl,rfl⟩
      rw [List.take_append_drop]
      omega
    | none =>
      simp only [hfind] at h'
      exact ih h' hnew.symm (by omega) fun r hr => hbounded r (List.mem_cons_of_mem _ hr)

theorem headers_unique (hdesc : desc.content = headers ++ body) (hends : blankLine <:+ headers)
    (hfirst : ¬ blankLine <:+: headers.dropLast)
    (h' : getResponseHeadersAndPartOfBody [] 0 desc.reads = .ok (some (h,t,rest))) :
    h = headers ∧ t ++ rest.flatten = body ∧
      ∃ before r, desc.reads = before ++ r :: rest ∧ before.flatten.length < headers.length ∧
        headers.length + t.length = (before ++ [r]).flatten.length := by
  obtain ⟨before,r,hreads,heq,hthere,hlen,hnone⟩ := getResponseHeadersAndPartOfBody_some h' (by decide)
  obtain ⟨pre,rfl⟩ := hends
  have hplen : (pre ++ blankLine).length = pre.length + 4 := List.length_append
  have hfind : findString (pre ++ blankLine ++ body) blankLine = some pre.length :=
    search_first (by decide) hfirst
  have hwhole : h ++ t ++ rest.flatten = pre ++ blankLine ++ body := by
    rw [← hdesc,Arrival.content,hreads,heq]
    simp
  have hsame : h.length = (pre ++ blankLine).length := by
    have hlonger : findString (h ++ t ++ rest.flatten) blankLine = some (h.length - 4) :=
      search_append hthere
    rw [hwhole,hfind] at hlonger
    have hnat := Option.some.inj hlonger
    omega
  rw [List.append_assoc] at hwhole
  obtain ⟨rfl,rfl⟩ := List.append_inj hwhole hsame
  refine ⟨rfl,rfl,before,r,hreads,?_,?_⟩
  · by_contra hge
    have hlonger : findString (before.flatten ++ (r ++ rest.flatten)) blankLine = some pre.length := by
      rw [← hfind,← hdesc,Arrival.content,hreads]
      simp
    have hfound := search_of_append hlonger (by rw [length_blankLine]; omega)
    rw [List.nil_append] at hnone
    rw [findString,hfound] at hnone
    cases hnone
  · have hcount := congrArg List.length heq
    rw [List.length_append] at hcount
    simpa using hcount

end Headers

section Size

variable {currentProgress last_progress : Nat} {reads : List Str}

theorem forwardBody_memory (h : currentProgress < 2^64) :
    (forwardBody false currentProgress last_progress reads).1 = reads.map .content ∧
      (forwardBody false currentProgress last_progress reads).2 =
        (currentProgress + reads.flatten.length) % 2^64 := by
  induction reads generalizing currentProgress last_progress with
  | nil => exact ⟨rfl,(Nat.mod_eq_of_lt h).symm⟩
  | cons buf reads ih =>
    have hih := fun last => @ih ((currentProgress + buf.length) % 2^64) last (Nat.mod_lt _ (by omega))
    simp only [forwardBody,Bool.false_eq_true,if_false]
    constructor
    · rw [(hih _).1]
      rfl
    · rw [(hih _).2,Nat.mod_add_mod,List.flatten_cons,List.length_append,Nat.add_assoc]

theorem sentBody_content (l : List Str) : sentBody (l.map .content) = l.flatten := by
  induction l with
  | nil => rfl
  | cons buf l ih =>
    rw [List.map_cons,List.flatten_cons,← ih]
    rfl

theorem sentBody_append (l l' : List LocalWrite) : sentBody (l ++ l') = sentBody l ++ sentBody l' :=
  List.flatMap_append

variable {lib : HttpLibrary} {opens : Str → Bool} {downloadPath targetFilename url headers body : Str}
  {desc : Arrival} {parsedContentLength : Nat} {hdrs tmpbody : Str} {rest : List Str} {out : Forwarded}

theorem forward_memory
    (hheaders : getResponseHeadersAndPartOfBody [] 0 desc.reads = .ok (some (hdrs,tmpbody,rest)))
    (hstatus : parseResponseCode hdrs = .ok 200) (hlength : parseContentLength hdrs = .ok parsedContentLength)
    (hsmall : tmpbody.length < 2^64) :
    ∃ httpFilename,
      parseHttpResponseHeadersAndBody lib opens downloadPath targetFilename url false true desc = .ok
        ⟨if downloadCompleted parsedContentLength ((tmpbody.length + rest.flatten.length) % 2^64) desc.last
            then 200 else -1,
          hdrs,
          [.endOfRedirects,.filename httpFilename,
            .totalSize (if parsedContentLength = maxuint then tmpbody.length else parsedContentLength),
            .content tmpbody] ++ rest.map .content,[]⟩ := by
  have hloop := @forwardBody_memory tmpbody.length 0 rest hsmall
  refine ⟨if targetFilename = [] then getHttpFilename lib hdrs url else targetFilename,?_⟩
  simp only [parseHttpResponseHeadersAndBody,hheaders,bind,Except.bind,hstatus,hlength,hloop.1,hloop.2,
    Bool.false_eq_true,ne_eq,not_true_eq_false,if_false,false_and,and_true]
  split <;> simp [pure,Except.pure]

/-- With a length the size announced is that of the body. Without one it is the size of what had come when
the blank line was complete. -/
theorem announced_size (hdesc : desc.content = headers ++ body) (hends : blankLine <:+ headers)
    (hfirst : ¬ blankLine <:+: headers.dropLast)
    (hlength : parseContentLength headers = .ok parsedContentLength)
    (hrun : parseHttpResponseHeadersAndBody lib opens downloadPath targetFilename url false true desc =
      .ok out) (hret : out.httpRet = 200) :
    sentBody out.local_fd = body ∧ ∃ announced, announcedSize out.local_fd = some announced ∧
      (parsedContentLength ≠ maxuint → announced = body.length % 2^64) ∧
      (parsedContentLength = maxuint → ∃ before r rest, desc.reads = before ++ r :: rest ∧
        before.flatten.length < headers.length ∧
        headers.length + announced = (before ++ [r]).flatten.length ∧
        (announced = body.length ↔ rest = [])) := by
  cases hheaders : getResponseHeadersAndPartOfBody [] 0 desc.reads with
  | error e =>
    rw [parseHttpResponseHeadersAndBody,hheaders] at hrun
    cases hrun
  | ok found =>
    cases found with
    | none =>
      rw [parseHttpResponseHeadersAndBody,hheaders] at hrun
      cases hrun
      exact absurd hret (by decide)
    | some found =>
      obtain ⟨hdrs,tmpbody,rest⟩ := found
      obtain ⟨rfl,rfl,before,r,hreads,hbefore,hcount⟩ := headers_unique hdesc hends hfirst hheaders
      have hsmall := getResponseHeadersAndPartOfBody_small hheaders rfl (by simp)
        fun r hr => (desc.bounded r hr).2
      rw [List.length_append] at hsmall
      cases hstatus : parseResponseCode hdrs with
      | error e =>
        simp only [parseHttpResponseHeadersAndBody,hheaders,hstatus,bind,Except.bind] at hrun
        cases hrun
      | ok status =>
        have hok : status = 200 := by
          by_contra hne
          simp only [parseHttpResponseHeadersAndBody,hheaders,hstatus,bind,Except.bind,
            if_pos (show status ≠ 200 from hne)] at hrun
          cases hrun
          exact hne hret
        subst hok
        obtain ⟨httpFilename,hforward⟩ := @forward_memory lib opens downloadPath targetFilename url desc
          parsedContentLength hdrs tmpbody rest hheaders hstatus hlength (by omega)
        rw [hrun] at hforward
        obtain rfl := Except.ok.inj hforward
        have hcompleted : downloadCompleted parsedContentLength
            ((tmpbody.length + rest.flatten.length) % 2^64) desc.last = true := by
          by_contra hbroken
          simp only [if_neg hbroken] at hret
          exact absurd hret (by decide)
        refine ⟨?_,_,rfl,fun hknown => ?_,fun hunknown => ⟨before,r,rest,hreads,hbefore,?_,?_⟩⟩
        · rw [sentBody_append,sentBody_content]
          simp [sentBody,LocalWrite.bodyBytes]
        · rw [downloadCompleted,if_pos hknown,decide_eq_true_eq] at hcompleted
          rw [if_neg hknown,List.length_append,hcompleted]
        · rw [if_pos hunknown]
          exact hcount
        · rw [if_pos hunknown,List.length_append]
          constructor
          · intro heq
            by_contra hrest
            obtain ⟨r',rest',rfl⟩ := List.exists_cons_of_ne_nil hrest
            have hpos := (desc.bounded r' (by rw [hreads]; simp)).1
            rw [List.flatten_cons,List.length_append] at heq
            omega
          · rintro rfl
            rfl

def statusOk : Str := text ['H','T','T','P','/','1','.','0',' ','2','0','0',' ','O','K','\r','\n']

def sizedHeaders : Str := statusOk ++ contentLengthPattern ++ text ['1','\r','\n','\r','\n']

def sized : Arrival := ⟨[sizedHeaders,text ['x']],by decide,true⟩

def unsized : Arrival := ⟨[statusOk ++ crlf,text ['x']],by decide,true⟩

def noLibrary : HttpLibrary := ⟨fun _ => [],fun _ => none,0⟩

theorem sized_announces_one :
    sentBody [.endOfRedirects,.filename (text ['o']),.totalSize 1,.content [],.content (text ['x'])] =
        text ['x'] ∧
      ∃ announced, announcedSize [.endOfRedirects,.filename (text ['o']),.totalSize 1,.content [],
          .content (text ['x'])] = some announced ∧ (1 ≠ maxuint → announced = 1 % 2^64) :=
  have h := @announced_size noLibrary (fun _ => true) [] (text ['o']) [] sizedHeaders (text ['x']) sized 1
    ⟨200,sizedHeaders,[.endOfRedirects,.filename (text ['o']),.totalSize 1,.content [],
      .content (text ['x'])],[]⟩ rfl
      ⟨statusOk ++ contentLengthPattern ++ text ['1'],rfl⟩ (by decide +kernel) (by decide +kernel)
      (by decide +kernel) rfl
  ⟨h.1,h.2.imp fun _ h => ⟨h.1,h.2.1⟩⟩

/-- What the client is told of a body of one byte that is read behind the headers. -/
theorem unsized_announces_nothing :
    (parseHttpResponseHeadersAndBody noLibrary (fun _ => true) [] (text ['o']) [] false true
      unsized).map (fun out => (out.httpRet,announcedSize out.local_fd,sentBody out.local_fd)) =
        .ok (200,some 0,text ['x']) := by
  decide +kernel

end Size

end RootHelper
