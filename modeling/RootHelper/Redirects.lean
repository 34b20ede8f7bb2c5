import RootHelper.HttpForwarding

/-!
Downloads that follow redirects: the host and the port of a URL, and what becomes of an exception on the
way. A session catches that of `threadExit` alone.
-/

set_option autoImplicit false

namespace RootHelper
open Posix Sequences

inductive Thrown where
  | threadExitThrowable
  | invalid_argument
  | out_of_range
  deriving DecidableEq, Repr

def portDigits (s : Str) : Str :=
  match s with
  | 45 :: s => s.takeWhile isdigit
  | 43 :: s => s.takeWhile isdigit
  | s => s.takeWhile isdigit

def stoi (p : Str) : Except Thrown Int :=
  let s := (cstr p).dropWhile isspace
  let n : Int := if s.head? = some 45 then - decimal (portDigits s) else decimal (portDigits s)
  if portDigits s = [] then throw .invalid_argument
  else if n < -2^31 ∨ 2^31 ≤ n then throw .out_of_range
  else pure n

structure httpUrlInfo where
  isHttps : Bool
  domainOnly : Str
  port : Int
  queryString : Str
  deriving DecidableEq, Repr

def plainScheme : Str := text ['h','t','t','p',':','/','/']
def tlsScheme : Str := text ['h','t','t','p','s',':','/','/']

def schemeless (url : Str) : Str :=
  if plainScheme <+: url then url.drop plainScheme.length
  else if tlsScheme <+: url then url.drop tlsScheme.length else url

def getHttpInfo (url : Str) (allowPlainHttp : Bool) : Except Thrown (Option httpUrlInfo) :=
  if plainScheme <+: url ∧ ¬ allowPlainHttp then pure none
  else do
    let isHttps := ! decide (plainScheme <+: url)
    let domainOnly := (schemeless url).takeWhile (· ≠ slash)
    let queryString := (schemeless url).dropWhile (· ≠ slash)
    if 58 ∈ domainOnly then do
      let port ← stoi ((domainOnly.dropWhile (· ≠ 58)).drop 1)
      pure (some ⟨isHttps,domainOnly.takeWhile (· ≠ 58),port,queryString⟩)
    else pure (some ⟨isHttps,domainOnly,if isHttps then 443 else 80,queryString⟩)

def locLabel : Str := text ['\n','L','o','c','a','t','i','o','n',':',' ']

def getRedirectLocation (hdrs : Str) : Option Str := do
  let redirectLocIdx ← findStringIC hdrs locLabel
  let locationtag := hdrs.drop (redirectLocIdx + locLabel.length)
  let redirectLocIdx ← findString locationtag crlf
  pure (locationtag.take redirectLocIdx)

/-- What one attempt meets once the URL has been taken apart. -/
structure Attempt where
  remoteCl : Bool
  sharedHash : Bool
  /-- Whether the local socket takes the answer to the connection or the error. -/
  answered : Bool
  /-- Whether the writes inside the `try` go well. -/
  requested : Bool
  response : Arrival

structure DownloadRequest where
  target : Str
  downloadPath : Str
  targetFilename : Str
  downloadToFile : Bool
  httpsOnly : Bool

section Downloads

variable (lib : HttpLibrary) (opens : Str → Bool) (rq : DownloadRequest)

def httpsUrlDownload_internal (net : httpUrlInfo → Attempt) (targetUrl redirectUrl : Str) :
    Except Thrown (Int × Str) := do
  match ← getHttpInfo targetUrl (! rq.httpsOnly) with
  | none => pure (-1,redirectUrl)
  | some info =>
    let attempt := net info
    if ¬ attempt.remoteCl ∨ (info.domainOnly = [] ∨ rq.downloadPath = []) ∧ rq.downloadToFile ∨
        info.isHttps ∧ ¬ attempt.sharedHash then
      if attempt.answered then pure (-1,redirectUrl) else throw .threadExitThrowable
    else if info.isHttps ∧ ¬ attempt.answered then throw .threadExitThrowable
    else if ¬ attempt.requested then pure (-1,redirectUrl)
    else
      match parseHttpResponseHeadersAndBody lib opens rq.downloadPath rq.targetFilename
          (info.domainOnly ++ slash :: info.queryString) rq.downloadToFile false attempt.response with
      | .error _ => pure (-1,redirectUrl)
      | .ok out =>
        if out.httpRet = 301 ∨ out.httpRet = 302 then
          match getRedirectLocation out.hdrs with
          | none => pure (-1,redirectUrl)
          | some redirectUrl => pure (out.httpRet,redirectUrl)
        else pure (out.httpRet,redirectUrl)

/-- `net` may answer each attempt otherwise; `told` is whether the client can be sent the error. -/
def redirectLoop (net : Nat → httpUrlInfo → Attempt) (told : Bool) :
    Nat → Str → Str → Except Thrown Int
  | 0, _, _ => pure (-1)
  | left+1, target, redirectUrl => do
    let (httpRet,redirectUrl) ← httpsUrlDownload_internal lib opens rq (net left) target redirectUrl
    if httpRet = 200 then pure httpRet
    else if httpRet ≠ 301 ∧ httpRet ≠ 302 then
      if told then pure httpRet else throw .threadExitThrowable
    else redirectLoop net told left redirectUrl redirectUrl

def httpsUrlDownload (net : Nat → httpUrlInfo → Attempt) (told : Bool) : Except Thrown Int :=
  redirectLoop lib opens rq net told 5 rq.target []

end Downloads

inductive SessionEnd where
  | disconnected
  | terminated
  deriving DecidableEq, Repr

/-- Of `clientSession`: a download is followed by `threadExit`, and no other exception is caught. -/
def sessionEnd : Except Thrown Int → SessionEnd
  | .ok _ => .disconnected
  | .error .threadExitThrowable => .disconnected
  | .error _ => .terminated

/-- The host and the port, up to the first slash. -/
def authority (url : Str) : Str := (schemeless url).takeWhile (· ≠ slash)

/-- The text that is converted, from its sign on. -/
def portText (url : Str) : Str := (cstr (((authority url).dropWhile (· ≠ 58)).drop 1)).dropWhile isspace

def Refused (url : Str) (allowPlainHttp : Bool) : Prop := plainScheme <+: url ∧ ¬ allowPlainHttp

/-- There is a host, and a port, if one is given, begins as a number from 1 to 65535. -/
def UrlFits (url : Str) (allowPlainHttp : Bool) : Prop :=
  Refused url allowPlainHttp ∨ (authority url).takeWhile (· ≠ 58) ≠ [] ∧
    (58 ∈ authority url → (portText url).head? ≠ some 45 ∧ portDigits (portText url) ≠ [] ∧
      1 ≤ decimal (portDigits (portText url)) ∧ decimal (portDigits (portText url)) ≤ 65535)

/-- What is given for a port does not begin as a number, or as one that is no `int`. -/
def UrlThrows (url : Str) (allowPlainHttp : Bool) : Prop :=
  ¬ Refused url allowPlainHttp ∧ 58 ∈ authority url ∧ (portDigits (portText url) = [] ∨
    if (portText url).head? = some 45 then 2^31 < decimal (portDigits (portText url))
    else 2^31 ≤ decimal (portDigits (portText url)))

def InfoFits : Except Thrown (Option httpUrlInfo) → Prop
  | .ok none => True
  | .ok (some info) => info.domainOnly ≠ [] ∧ 1 ≤ info.port ∧ info.port ≤ 65535
  | .error _ => False

section Info

variable {url p : Str} {allowPlainHttp : Bool}

theorem getHttpInfo_refused (h : Refused url allowPlainHttp) : getHttpInfo url allowPlainHttp = .ok none :=
  if_pos h

theorem getHttpInfo_port (h : ¬ Refused url allowPlainHttp) (hport : 58 ∈ authority url) :
    getHttpInfo url allowPlainHttp = (stoi (((authority url).dropWhile (· ≠ 58)).drop 1)).map fun port =>
      some ⟨! decide (plainScheme <+: url),(authority url).takeWhile (· ≠ 58),port,
        (schemeless url).dropWhile (· ≠ slash)⟩ := by
  refine ((if_neg h).trans (if_pos hport)).trans ?_
  change stoi (((authority url).dropWhile (· ≠ 58)).drop 1) >>= _ = _
  cases stoi (((authority url).dropWhile (· ≠ 58)).drop 1) <;> rfl

theorem getHttpInfo_plain (h : ¬ Refused url allowPlainHttp) (hport : 58 ∉ authority url) :
    getHttpInfo url allowPlainHttp = .ok (some ⟨! decide (plainScheme <+: url),authority url,
      if ! decide (plainScheme <+: url) then 443 else 80,(schemeless url).dropWhile (· ≠ slash)⟩) :=
  (if_neg h).trans (if_neg hport)

theorem stoi_cases (p : Str) {s : Str} (hs : s = (cstr p).dropWhile isspace) :
    (portDigits s = [] ∧ stoi p = .error .invalid_argument) ∨
    (portDigits s ≠ [] ∧ (if s.head? = some 45 then 2^31 < decimal (portDigits s)
      else 2^31 ≤ decimal (portDigits s)) ∧ stoi p = .error .out_of_range) ∨
    (portDigits s ≠ [] ∧ ¬ (if s.head? = some 45 then 2^31 < decimal (portDigits s)
      else 2^31 ≤ decimal (portDigits s)) ∧
      stoi p = .ok (if s.head? = some 45 then - decimal (portDigits s) else decimal (portDigits s))) := by
  subst hs
  unfold stoi
  simp only
  by_cases hdigits : portDigits ((cstr p).dropWhile isspace) = []
  · exact .inl ⟨hdigits,if_pos hdigits⟩
  · rw [if_neg hdigits]
    by_cases hsign : ((cstr p).dropWhile isspace).head? = some 45
    · simp only [if_pos hsign]
      split
      · exact .inr (.inl ⟨hdigits,by omega,rfl⟩)
      · exact .inr (.inr ⟨hdigits,by omega,rfl⟩)
    · simp only [if_neg hsign]
      split
      · exact .inr (.inl ⟨hdigits,by omega,rfl⟩)
      · exact .inr (.inr ⟨hdigits,by omega,rfl⟩)

theorem getHttpInfo_fits_iff (url : Str) (allowPlainHttp : Bool) :
    InfoFits (getHttpInfo url allowPlainHttp) ↔ UrlFits url allowPlainHttp := by
  by_cases hrefused : Refused url allowPlainHttp
  · rw [getHttpInfo_refused hrefused]
    exact iff_of_true trivial (.inl hrefused)
  unfold UrlFits
  simp only [hrefused,false_or]
  by_cases hport : 58 ∈ authority url
  · rw [getHttpInfo_port hrefused hport]
    simp only [hport,forall_const]
    obtain ⟨hdigits,hstoi⟩ | ⟨hdigits,hlarge,hstoi⟩ | ⟨hdigits,hsmall,hstoi⟩ :=
      @stoi_cases (((authority url).dropWhile (· ≠ 58)).drop 1) (portText url) rfl
    · rw [hstoi]
      exact iff_of_false id fun h => h.2.2.1 hdigits
    · rw [hstoi]
      refine iff_of_false id fun h => ?_
      rw [if_neg h.2.1] at hlarge
      omega
    · rw [hstoi]
      refine and_congr_right fun _ => ?_
      dsimp only
      by_cases hsign : (portText url).head? = some 45
      · rw [if_pos hsign]
        exact iff_of_false (by omega) fun h => h.1 hsign
      · rw [if_neg hsign]
        exact ⟨fun h => ⟨hsign,hdigits,by omega,by omega⟩,fun h => ⟨by omega,by omega⟩⟩
  · have hhost : (authority url).takeWhile (· ≠ 58) = authority url := by
      rw [List.takeWhile_eq_self_iff]
      intro b hb
      have hne : b ≠ 58 := fun heq => hport (heq ▸ hb)
      simpa using hne
    rw [getHttpInfo_plain hrefused hport,hhost]
    simp only [hport,false_imp_iff,and_true,InfoFits]
    refine and_iff_left ?_
    split <;> decide

theorem getHttpInfo_throws_iff (url : Str) (allowPlainHttp : Bool) :
    (∃ e, getHttpInfo url allowPlainHttp = .error e ∧ e ≠ .threadExitThrowable) ↔
      UrlThrows url allowPlainHttp := by
  unfold UrlThrows
  by_cases hrefused : Refused url allowPlainHttp
  · rw [getHttpInfo_refused hrefused]
    simp [hrefused]
  by_cases hport : 58 ∈ authority url
  · rw [getHttpInfo_port hrefused hport]
    simp only [hport,hrefused,not_false_eq_true,true_and]
    obtain ⟨hdigits,hstoi⟩ | ⟨hdigits,hlarge,hstoi⟩ | ⟨hdigits,hsmall,hstoi⟩ :=
      @stoi_cases (((authority url).dropWhile (· ≠ 58)).drop 1) (portText url) rfl
    · rw [hstoi]
      exact iff_of_true ⟨_,rfl,by decide⟩ (.inl hdigits)
    · rw [hstoi]
      exact iff_of_true ⟨_,rfl,by decide⟩ (.inr hlarge)
    · rw [hstoi]
      refine iff_of_false ?_ fun h => h.elim hdigits hsmall
      rintro ⟨e,h,_⟩
      cases h
  · rw [getHttpInfo_plain hrefused hport]
    simp [hport]

end Info

section Chains

variable (lib : HttpLibrary) (opens : Str → Bool) (rq : DownloadRequest)
  (net : Nat → httpUrlInfo → Attempt) (told : Bool)

/-- The URLs that are tried one after the other. -/
def triedUrls : Nat → Str → Str → List Str
  | 0, _, _ => []
  | left+1, target, redirectUrl => target ::
    match httpsUrlDownload_internal lib opens rq (net left) target redirectUrl with
    | .error _ => []
    | .ok (httpRet,redirectUrl) =>
      if httpRet = 301 ∨ httpRet = 302 then triedUrls left redirectUrl redirectUrl else []

theorem sessionEnd_error {e : Thrown} : sessionEnd (.error e) = .terminated ↔ e ≠ .threadExitThrowable := by
  cases e <;> simp [sessionEnd]

theorem internal_throws_iff {attempt : httpUrlInfo → Attempt} {target redirectUrl : Str} :
    (∃ e, httpsUrlDownload_internal lib opens rq attempt target redirectUrl = .error e ∧
      e ≠ .threadExitThrowable) ↔ UrlThrows target (! rq.httpsOnly) := by
  rw [← getHttpInfo_throws_iff]
  unfold httpsUrlDownload_internal
  cases getHttpInfo target (! rq.httpsOnly) with
  | error e => simp [bind,Except.bind]
  | ok info =>
    refine iff_of_false ?_ (by simp)
    rintro ⟨e,h,hother⟩
    cases info with
    | none => cases h
    | some info =>
      simp only [bind,Except.bind] at h
      split at h
      · split at h
        · cases h
        · cases h
          exact hother rfl
      split at h
      · cases h
        exact hother rfl
      split at h
      · cases h
      split at h
      · cases h
      · split at h
        · split at h <;> cases h
        · cases h

theorem redirectLoop_terminates_iff (left : Nat) (target redirectUrl : Str) :
    sessionEnd (redirectLoop lib opens rq net told left target redirectUrl) = .terminated ↔
      ∃ url ∈ triedUrls lib opens rq net left target redirectUrl, UrlThrows url (! rq.httpsOnly) := by
  induction left generalizing target redirectUrl with
  | zero => simp [redirectLoop,triedUrls,sessionEnd,pure,Except.pure]
  | succ left ih =>
    have hthrows := @internal_throws_iff lib opens rq (net left) target redirectUrl
    rw [redirectLoop,triedUrls,List.exists_mem_cons_iff]
    cases hinternal : httpsUrlDownload_internal lib opens rq (net left) target redirectUrl with
    | error e =>
      rw [hinternal] at hthrows
      rw [← hthrows]
      simp [bind,Except.bind,sessionEnd_error]
    | ok result =>
      obtain ⟨httpRet,redirectUrl'⟩ := result
      have hfine : ¬ UrlThrows target (! rq.httpsOnly) := by
        rw [← hthrows,hinternal]
        simp
      simp only [bind,Except.bind,hfine,false_or]
      by_cases hredirect : httpRet = 301 ∨ httpRet = 302
      · have hnot200 : httpRet ≠ 200 := by omega
        have hnot : ¬ (httpRet ≠ 301 ∧ httpRet ≠ 302) := by omega
        rw [if_neg hnot200,if_neg hnot,if_pos hredirect]
        exact ih redirectUrl' redirectUrl'
      · have hnot : httpRet ≠ 301 ∧ httpRet ≠ 302 := by omega
        rw [if_neg hredirect,if_pos hnot]
        split_ifs <;> simp [sessionEnd,pure,Except.pure,throw,throwThe,MonadExceptOf.throw]

/-- A URL is read rightly, and a download ends its session only, exactly where the ports that are given
begin as numbers that fit. -/
theorem redirects_iff (url : Str) (allowPlainHttp : Bool) :
    (InfoFits (getHttpInfo url allowPlainHttp) ↔ UrlFits url allowPlainHttp) ∧
      (sessionEnd (httpsUrlDownload lib opens rq net told) = .disconnected ↔
        ∀ url ∈ triedUrls lib opens rq net 5 rq.target [], ¬ UrlThrows url (! rq.httpsOnly)) := by
  refine ⟨getHttpInfo_fits_iff url allowPlainHttp,?_⟩
  have hloop := redirectLoop_terminates_iff lib opens rq net told 5 rq.target []
  have hends : ∀ e : SessionEnd, e = .disconnected ↔ ¬ e = .terminated := by
    intro e
    cases e <;> simp
  rw [hends,httpsUrlDownload,hloop]
  simp

/-- A server that sends every request on to the host `h` and the port `x`. -/
def sendsOn : Attempt where
  remoteCl := true
  sharedHash := true
  answered := true
  requested := true
  response := ⟨[text ['H','T','T','P','/','1','.','0',' ','3','0','1',' ','M','\r'] ++ locLabel ++
    text ['h',':','x','\r','\n','\r','\n']],by decide,true⟩

def downloadFrom (target : List Char) : DownloadRequest :=
  ⟨text target,text ['/','d'],[],true,false⟩

/-- A port that is none ends the process, from the user or from a server. -/
theorem redirect_terminates :
    getHttpInfo (text ['h',':','0']) true = .ok (some ⟨true,text ['h'],0,[]⟩) ∧
      getHttpInfo (text ['h',':','x']) true = .error .invalid_argument ∧
      sessionEnd (httpsUrlDownload noLibrary (fun _ => true) (downloadFrom ['s']) (fun _ _ => sendsOn) true) =
        .terminated := by
  decide +kernel

end Chains

end RootHelper
