import RootHelper.Requests
import RootHelper.RoundTrips

/-!
A local client, the proxy and the server with a way for the bytes in each direction. The bytes come
in whatever pieces the ways give them in. An exchange is a request the proxy sends on, the server's
answer, and what the proxy makes of it for the local client.
-/

set_option autoImplicit false

namespace RootHelper
open Posix Control

variable {ε σ : Type}

/-- What a proxy works with: the two descriptors, and the `BufferedWriteDescriptor` over the second. -/
structure Ends (ε σ : Type) where
  cl : Desc ε σ
  rcl : Desc ε σ
  brcl : Sink ε σ
  newBuffer : EStateM ε σ Unit
  flush : EStateM ε σ Unit

namespace Ends

variable (ends : Ends ε σ)

def client_ls_request (rq : request_type) : EStateM ε σ Unit := do
  let dirpath ← ends.cl.readStringWithLen
  let dirpath_sz := dirpath.length % 65536
  ends.rcl.writeAllOrExit (.bytes (rq.byte :: (littleEndian 2 dirpath_sz ++ dirpath.take dirpath_sz)))

def client_stats_request (rq : request_type) : EStateM ε σ Unit := do
  let dirpath ← ends.cl.readStringWithLen
  ends.newBuffer
  ends.brcl.writeAllOrExit (.u8 rq.byte)
  ends.brcl.writeStringWithLen dirpath
  ends.flush

/-- The algorithm, when a request has been sent. -/
def client_hash_request (errno : Nat) (rq : request_type) : EStateM ε σ (Option Byte) := do
  let algorithm ← ends.cl.readU8
  let dirHashOpts ← ends.cl.readU8
  if rh_hash_maxAlgoIndex ≤ algorithm.toNat then do
    ends.cl.sendBaseResponse (-1) errno
    pure none
  else do
    ends.newBuffer
    ends.brcl.writeAllOrExit (.u8 rq.byte)
    ends.brcl.writeAllOrExit (.u8 algorithm)
    ends.brcl.writeAllOrExit (.u8 dirHashOpts)
    let filepath ← ends.cl.readStringWithLen
    ends.brcl.writeStringWithLen filepath
    ends.flush
    pure (some algorithm)

end Ends

structure Ways (α β γ δ : Type) where
  fromLocal : α
  toLocal : β
  toServer : γ
  fromServer : δ
  /-- What the `BufferedWriteDescriptor` keeps. -/
  buffer : Str

namespace Ways

variable {α β γ δ : Type}

def fromLocalPart : Lens (Ways α β γ δ) α where
  get w := w.fromLocal
  set w s := { w with fromLocal := s }
  get_set _ _ := rfl
  set_get _ := rfl
  set_set _ _ _ := rfl

def toLocalPart : Lens (Ways α β γ δ) β where
  get w := w.toLocal
  set w s := { w with toLocal := s }
  get_set _ _ := rfl
  set_get _ := rfl
  set_set _ _ _ := rfl

def toServerPart : Lens (Ways α β γ δ) γ where
  get w := w.toServer
  set w s := { w with toServer := s }
  get_set _ _ := rfl
  set_get _ := rfl
  set_set _ _ _ := rfl

def fromServerPart : Lens (Ways α β γ δ) δ where
  get w := w.fromServer
  set w s := { w with fromServer := s }
  get_set _ _ := rfl
  set_get _ := rfl
  set_set _ _ _ := rfl

end Ways

/-- How the bytes get from one to the other. -/
structure Network (ε α β γ δ : Type) where
  fromLocal : Transport ε α
  toLocal : Transport ε β
  toServer : Transport ε γ
  fromServer : Transport ε δ

/-- The bytes under way. -/
structure UnderWay where
  fromLocal : Str
  toLocal : Str
  toServer : Str
  fromServer : Str
  buffer : Str
  deriving DecidableEq, Repr

namespace Network

variable {α β γ δ : Type} (net : Network ε α β γ δ)

def between {μ ν : Type} (L : Lens σ μ) (inp : Transport ε μ) (M : Lens σ ν) (out : Transport ε ν) :
    Desc ε σ where
  toSource := inp.desc.toSource.over L
  toSink := out.desc.toSink.over M

def cl : Desc ε (Ways α β γ δ) :=
  between Ways.fromLocalPart net.fromLocal Ways.toLocalPart net.toLocal

def rcl : Desc ε (Ways α β γ δ) :=
  between Ways.fromServerPart net.fromServer Ways.toServerPart net.toServer

/-- What the server's handlers read from and write to. -/
def inOutDesc : Desc ε (Ways α β γ δ) :=
  between Ways.toServerPart net.toServer Ways.fromServerPart net.fromServer

def ends : Ends ε (Ways α β γ δ) where
  cl := net.cl
  rcl := net.rcl
  brcl := ⟨fun c => modify fun w => { w with buffer := w.buffer ++ c.encode }⟩
  newBuffer := modify fun w => { w with buffer := [] }
  flush := do
    let w ← get
    if w.buffer = [] then pure ()
    else do
      net.rcl.writeAllOrExit (.bytes w.buffer)
      modify fun w => { w with buffer := [] }

def Holds (w : Ways α β γ δ) (u : UnderWay) : Prop :=
  net.fromLocal.content w.fromLocal = u.fromLocal ∧ net.toLocal.content w.toLocal = u.toLocal ∧
    net.toServer.content w.toServer = u.toServer ∧
    net.fromServer.content w.fromServer = u.fromServer ∧ w.buffer = u.buffer

section Steps

variable (u : UnderWay)

theorem reads_fromLocal : net.cl.toSource.Reads fun w bs => net.Holds w { u with fromLocal := bs } := by
  intro bs w rest h
  change wp (Ways.fromLocalPart.run (net.fromLocal.readAllOrExit bs.length)) _ _ w
  rw [wp_run]
  exact wp_mono (net.fromLocal.reads bs _ rest h.1) (fun _ _ hs => ⟨hs.1,hs.2,h.2⟩) fun _ _ h => h

theorem reads_fromServer :
    net.rcl.toSource.Reads fun w bs => net.Holds w { u with fromServer := bs } := by
  intro bs w rest h
  obtain ⟨h₁,h₂,h₃,h₄,h₅⟩ := h
  change wp (Ways.fromServerPart.run (net.fromServer.readAllOrExit bs.length)) _ _ w
  rw [wp_run]
  exact wp_mono (net.fromServer.reads bs _ rest h₄) (fun _ _ hs => ⟨hs.1,h₁,h₂,h₃,hs.2,h₅⟩)
    fun _ _ h => h

theorem reads_toServer :
    net.inOutDesc.toSource.Reads fun w bs => net.Holds w { u with toServer := bs } := by
  intro bs w rest h
  obtain ⟨h₁,h₂,h₃,h₄⟩ := h
  change wp (Ways.toServerPart.run (net.toServer.readAllOrExit bs.length)) _ _ w
  rw [wp_run]
  exact wp_mono (net.toServer.reads bs _ rest h₃) (fun _ _ hs => ⟨hs.1,h₁,h₂,hs.2,h₄⟩) fun _ _ h => h

theorem writes_toLocal : net.cl.toSink.Writes fun w cs => net.Holds w { u with toLocal := cs } := by
  intro c w cs h
  obtain ⟨h₁,h₂,h₃⟩ := h
  change wp (Ways.toLocalPart.run (net.toLocal.writeAllOrExit c.encode)) _ _ w
  rw [wp_run]
  exact wp_mono (net.toLocal.writes c _ cs h₂) (fun _ _ hs => ⟨h₁,hs,h₃⟩) fun _ _ h => h

theorem writes_toServer :
    net.rcl.toSink.Writes fun w cs => net.Holds w { u with toServer := cs } := by
  intro c w cs h
  obtain ⟨h₁,h₂,h₃,h₄⟩ := h
  change wp (Ways.toServerPart.run (net.toServer.writeAllOrExit c.encode)) _ _ w
  rw [wp_run]
  exact wp_mono (net.toServer.writes c _ cs h₃) (fun _ _ hs => ⟨h₁,h₂,hs,h₄⟩) fun _ _ h => h

theorem writes_fromServer :
    net.inOutDesc.toSink.Writes fun w cs => net.Holds w { u with fromServer := cs } := by
  intro c w cs h
  obtain ⟨h₁,h₂,h₃,h₄,h₅⟩ := h
  change wp (Ways.fromServerPart.run (net.fromServer.writeAllOrExit c.encode)) _ _ w
  rw [wp_run]
  exact wp_mono (net.fromServer.writes c _ cs h₄) (fun _ _ hs => ⟨h₁,h₂,h₃,hs,h₅⟩) fun _ _ h => h

theorem writes_buffer : net.ends.brcl.Writes fun w cs => net.Holds w { u with buffer := cs } :=
  fun _ _ _ h => ⟨h.1,h.2.1,h.2.2.1,h.2.2.2.1,congrArg (· ++ _) h.2.2.2.2⟩

variable {net}

theorem wp_newBuffer {w : Ways α β γ δ} (h : net.Holds w u) {Q : Unit → Ways α β γ δ → Prop}
    {E : ε → Ways α β γ δ → Prop} (hQ : ∀ w', net.Holds w' { u with buffer := [] } → Q () w') :
    wp net.ends.newBuffer Q E w := hQ _ ⟨h.1,h.2.1,h.2.2.1,h.2.2.2.1,rfl⟩

theorem wp_flush {w : Ways α β γ δ} (h : net.Holds w u) :
    wp net.ends.flush (fun _ w' => net.Holds w'
      { u with toServer := u.toServer ++ u.buffer, buffer := [] }) (fun _ _ => False) w := by
  change wp (get >>= fun w : Ways α β γ δ => if w.buffer = [] then pure () else
    (net.rcl.writeAllOrExit (.bytes w.buffer) >>= fun _ => modify _)) _ _ w
  rw [wp_bind,wp_get]
  obtain ⟨h₁,h₂,h₃,h₄,h₅⟩ := h
  by_cases hempty : w.buffer = []
  · rw [if_pos hempty]
    rw [← h₅,hempty,List.append_nil]
    exact ⟨h₁,h₂,h₃,h₄,hempty⟩
  · rw [if_neg hempty,h₅,wp_bind]
    refine wp_mono (writes_toServer net u (.bytes u.buffer) w u.toServer ⟨h₁,h₂,h₃,h₄,h₅⟩)
      (fun _ w' h' => ?_) fun _ _ h => h
    exact ⟨h'.1,h'.2.1,h'.2.2.1,h'.2.2.2.1,rfl⟩

end Steps

/-- Nothing is left of the request, `inp` is still to come from the server, and the local client has
been sent `out`. -/
def Passing (next : Str) (w : Ways α β γ δ) (inp out : Str) : Prop :=
  net.Holds w ⟨next,out,[],inp,[]⟩

end Network

/-- What is read from `rcl` is taken off the first stream, what is written to `cl` is put behind the
second. -/
structure Relaying (rcl : Source ε σ) (cl : Sink ε σ) (on : σ → Str → Str → Prop) : Prop where
  reads : ∀ out, rcl.Reads fun s bs => on s bs out
  writes : ∀ inp, cl.Writes fun s cs => on s inp cs

theorem Network.relaying {α β γ δ : Type} (net : Network ε α β γ δ) (next : Str) :
    Relaying net.rcl.toSource net.cl.toSink (net.Passing next) where
  reads out := reads_fromServer net ⟨next,out,[],[],[]⟩
  writes inp := writes_toLocal net ⟨next,[],[],inp,[]⟩

namespace Relaying

variable {rcl : Source ε σ} {cl : Sink ε σ} {on : σ → Str → Str → Prop} (h : Relaying rcl cl on)

include h

theorem u8 (b : Byte) : Relays on rcl.readU8 [b] [] b :=
  Parses.relays fun out => parses_u8 (h.reads out).some b

theorem u16 {n : Nat} (hn : n < 65536) : Relays on rcl.readU16 (littleEndian 2 n) [] n :=
  Parses.relays fun out => parses_u16 (h.reads out).some hn

theorem u32 {n : Nat} (hn : n < 2^32) : Relays on rcl.readU32 (littleEndian 4 n) [] n :=
  Parses.relays fun out => parses_u32 (h.reads out).some hn

theorem u64 {n : Nat} (hn : n < 2^64) : Relays on rcl.readU64 (littleEndian 8 n) [] n :=
  Parses.relays fun out => parses_u64 (h.reads out).some hn

theorem bytes {bs : Str} {n : Nat} (hn : bs.length = n) : Relays on (rcl.readAllOrExit n) bs [] bs :=
  Parses.relays fun out => (h.reads out).bytes hn

theorem string {s : Str} (hs : s.length < 65536) :
    Relays on rcl.readStringWithLen (stringBytes s) [] s :=
  Parses.relays fun out => parses_string (h.reads out).some hs

/-- Four bytes that are read as a number are the same when it is written. -/
theorem number {bs : Str} (hn : bs.length = 4) :
    Relays on rcl.readU32 bs [] (fromLittleEndian bs) :=
  Parses.relays fun out => ((h.reads out).bytes hn).map fromLittleEndian

theorem write (c : Chunk) : Relays on (cl.writeAllOrExit c) [] c.encode () :=
  Prints.relays fun inp => h.writes inp c

/-- A response byte and the error number behind it go on as they came. -/
theorem pass_error (resp : Byte) {bs : Str} (hn : bs.length = 4) :
    Relays on (do
      let receivedErrno ← rcl.readU32
      cl.writeAllOrExit (.u8 resp)
      cl.writeAllOrExit (.u32 receivedErrno)) bs (resp :: bs) () := by
  have hnumber := h.write (.u32 (fromLittleEndian bs))
  have hsame : (Chunk.u32 (fromLittleEndian bs)).encode = bs := by
    have hback := littleEndian_fromLittleEndian bs
    rwa [hn] at hback
  rw [hsame] at hnumber
  exact (h.number hn).afterLast ((h.write (.u8 resp)).then hnumber)

theorem write_string {s : Str} (hs : s.length < 65536) :
    Relays on (cl.writeStringWithLen s) [] (stringBytes s) () :=
  Prints.relays fun inp => prints_string (h.writes inp) hs

end Relaying

/-- The request brings the session from `s` to a state from which the server's answer brings it to
`u`, and from there the proxy to `w`. -/
def Exchange {α : Type} (request : EStateM ε σ α) (serve : EStateM ε σ Unit)
    (response : α → EStateM ε σ Unit) (s u w : σ) : Prop :=
  ∃ a t, request s = .ok a t ∧ serve t = .ok () u ∧ response a u = .ok () w

theorem Exchange.unique {α : Type} {request : EStateM ε σ α} {serve : EStateM ε σ Unit}
    {response : α → EStateM ε σ Unit} {s u w u' w' : σ} (h : Exchange request serve response s u w)
    (h' : Exchange request serve response s u' w') : u' = u ∧ w' = w := by
  obtain ⟨a,t,hreq,hserve,hresp⟩ := h
  obtain ⟨a',t',hreq',hserve',hresp'⟩ := h'
  rw [hreq] at hreq'
  cases hreq'
  rw [hserve] at hserve'
  cases hserve'
  rw [hresp] at hresp'
  cases hresp'
  exact ⟨rfl,rfl⟩

/-- The three streams end with the exchange, `next` is what follows it, and the local client has got
what the server had sent, behind what it got before. -/
structure Network.InStep {α β γ δ : Type} (net : Network ε α β γ δ) (next out : Str)
    (u w : Ways α β γ δ) : Prop where
  fromLocal : net.fromLocal.content w.fromLocal = next
  toLocal : net.toLocal.content w.toLocal = out ++ net.fromServer.content u.fromServer
  toServer : net.toServer.content w.toServer = []
  fromServer : net.fromServer.content w.fromServer = []

section Exchanges

variable {α β γ δ ρ : Type} {net : Network ε α β γ δ} {next out msg passed rest : Str} {a : ρ}
  {request : EStateM ε (Ways α β γ δ) ρ} {serve : EStateM ε (Ways α β γ δ) Unit}
  {response : ρ → EStateM ε (Ways α β γ δ) Unit} {s : Ways α β γ δ}

/-- An exchange goes through when each of its parts does, the proxy passing on a front of the
answer. -/
theorem exists_exchange
    (hrequest : wp request (fun b t => b = a ∧ net.Holds t ⟨next,out,msg,[],[]⟩) (fun _ _ => False) s)
    (hserve : ∀ t, net.Holds t ⟨next,out,msg,[],[]⟩ →
      wp serve (fun _ u => net.Passing next u (passed ++ rest) out) (fun _ _ => False) t)
    (hresponse : Relays (net.Passing next) (response a) passed passed ()) :
    ∃ u w, Exchange request serve response s u w ∧ net.Passing next u (passed ++ rest) out ∧
      net.Passing next w rest (out ++ passed) := by
  obtain ⟨b,t,hb,rfl,ht⟩ := ok_of_wp hrequest
  obtain ⟨_,u,hu,hreply⟩ := ok_of_wp (hserve t ht)
  obtain ⟨_,w,hw,_,hrest⟩ := ok_of_wp (hresponse u rest out hreply)
  exact ⟨u,w,⟨b,t,hb,hu,hw⟩,hreply,hrest⟩

theorem inStep_iff {u w : Ways α β γ δ} (hu : net.Passing next u (passed ++ rest) out)
    (hw : net.Passing next w rest (out ++ passed)) : net.InStep next out u w ↔ rest = [] := by
  constructor
  · intro h
    exact hw.2.2.2.1.symm.trans h.fromServer
  · intro h
    refine ⟨hw.1,?_,hw.2.2.1,hw.2.2.2.1.trans h⟩
    rw [hw.2.1,hu.2.2.2.1,h]
    simp

/-- Where the proxy passes on the whole answer, the session is in step. -/
theorem exists_inStep {reply : Str}
    (hrequest : wp request (fun b t => b = a ∧ net.Holds t ⟨next,out,msg,[],[]⟩) (fun _ _ => False) s)
    (hserve : ∀ t, net.Holds t ⟨next,out,msg,[],[]⟩ →
      wp serve (fun _ u => net.Passing next u reply out) (fun _ _ => False) t)
    (hresponse : Relays (net.Passing next) (response a) reply reply ()) :
    ∃ u w, Exchange request serve response s u w ∧ net.Passing next u reply out ∧
      net.InStep next out u w := by
  rw [← List.append_nil reply] at hserve
  obtain ⟨u,w,hex,hu,hw⟩ := exists_exchange hrequest hserve hresponse
  have hstep := (inStep_iff hu hw).mpr rfl
  rw [List.append_nil] at hu
  exact ⟨u,w,hex,hu,hstep⟩

end Exchanges

end RootHelper
