import RootHelper.RequestBytes
import RootHelper.RingBuffer

/-!
Which requests of the client proxies the server reads to their end without waiting for more, once
all of their bytes are in its ring buffer.
-/

set_option autoImplicit false

namespace RootHelper
open Posix Control

/-- How a thread that reads from the ring comes to a stop. -/
inductive RingStop where
  /-- It waits for the peer. -/
  | waits
  | fault (e : RingFault)
  | threadExit
  | diverged
  deriving DecidableEq, Repr

def ringDescriptor : Descriptor RingStop RingBuffer where
  read count rb :=
    match RingBuffer.read count rb with
    | .ok (some r) rb' => .ok r rb'
    | .ok none rb' => .error .waits rb'
    | .error e rb' => .error (.fault e) rb'
  write buf rb :=
    match RingBuffer.write buf rb with
    | .ok (some n) rb' => .ok n rb'
    | .ok none rb' => .error .waits rb'
    | .error e rb' => .error (.fault e) rb'
  close rb :=
    match RingBuffer.close false rb with
    | .ok _ rb' => .ok () rb'
    | .error e rb' => .error (.fault e) rb'
  threadExit := .threadExit
  diverges := .diverged

/-- Reading a `TLSDescriptor` is reading its ring. -/
def tlsSource : Source RingStop RingBuffer := ringDescriptor.desc.toSource

def RingAt (rb : RingBuffer) (bs : Str) : Prop :=
  rb.closed = false ∧ (∃ c r n, rb.Holds c r n) ∧ rb.content = bs

theorem RingAt.length {rb : RingBuffer} {bs : Str} {c r n : Nat} (h : RingAt rb bs)
    (hh : rb.Holds c r n) : n = bs.length := by
  rw [← h.2.2,hh.content_eq,Circular.length_window]

theorem ring_read {rb : RingBuffer} {bs rest : Str} (hbs : bs ≠ []) (h : RingAt rb (bs ++ rest)) :
    ∃ rb', ringDescriptor.read bs.length rb = .ok ((bs.length : Int),bs) rb' ∧ RingAt rb' rest := by
  obtain ⟨c,r,n,hh⟩ := h.2.1
  have hn := h.length hh
  have hlen := List.length_pos_of_ne_nil hbs
  rw [List.length_append] at hn
  have hmin : min bs.length n = bs.length := by omega
  have hne : ¬ rb.readIdx = rb.writeIdx := fun he => by
    have hzero := hh.empty_iff.mp he
    omega
  have hcopy : wp (RingBuffer.read bs.length)
      (fun out rb' => out = some ((bs.length : Int),bs) ∧ RingAt rb' rest) (fun _ _ => False) rb := by
    simp only [RingBuffer.read,wp_bind,wp_get]
    rw [if_neg hne,wp_map]
    refine RingBuffer.wp_readCopy hh (by omega) ?_
    rw [hmin,h.2.2,List.take_left]
    have hnext := hh.advanced (show bs.length ≤ n by omega)
    refine ⟨rfl,h.1,⟨c,_,_,hnext⟩,?_⟩
    rw [hnext.content_eq]
    simp only
    rw [← Circular.window_drop (by omega),← hh.content_eq,h.2.2,List.drop_left]
  obtain ⟨out,rb',hx,rfl,hrest⟩ := ok_of_wp hcopy
  refine ⟨rb',?_,hrest⟩
  simp only [ringDescriptor,hx]

theorem tls_readsSome : tlsSource.ReadsSome RingAt := by
  intro bs hbs s rest h
  obtain ⟨s',hread,hrest⟩ := ring_read hbs h
  change wp (ringDescriptor.readAllOrExit bs.length) _ _ s
  have hlen := List.length_pos_of_ne_nil hbs
  rw [Descriptor.readAllOrExit,wp_bind,Descriptor.readAll,Descriptor.readAllLoop,wp_bind,
    wp_of_ok hread]
  simp only [Int.toNat_natCast]
  rw [if_neg (by omega),if_pos (by omega),wp_pure,if_neg (Int.lt_irrefl _)]
  exact ⟨rfl,hrest⟩

theorem tls_waits (count : Nat) : Stops RingAt (tlsSource.readAllOrExit count) [] .waits := by
  intro s h
  obtain ⟨c,r,n,hh⟩ := h.2.1
  have hempty := hh.empty_iff.mpr (h.length hh)
  have hopen : ¬ s.closed := by simp [h.1]
  have hread : ringDescriptor.read count s = .error .waits s := by
    have hwait : RingBuffer.read count s = .ok none s := by
      change (if s.readIdx = s.writeIdx then
        if s.closed then pure (some (s.eof,[])) else pure none
        else some <$> RingBuffer.readCopy count : RingM _) s = _
      rw [if_pos hempty,if_neg hopen]
      rfl
    simp only [ringDescriptor,hwait]
  change wp (ringDescriptor.readAllOrExit count) _ _ s
  rw [Descriptor.readAllOrExit,wp_bind,Descriptor.readAll,Descriptor.readAllLoop,wp_bind]
  unfold wp
  rw [hread]

variable {rq : request_type} {f : Sent} {access : Str → Bool} {turns : Nat}

theorem tls_waits_string : Stops RingAt tlsSource.readStringWithLen [] .waits :=
  (tls_waits 2).map.bind

theorem server_request_stalls (hturns : 2 ≤ turns) (hfits : f.Fits rq) (hstalls : f.Stalls rq) :
    Stops RingAt (server_request tlsSource access turns) (rq.byte :: f.body) .waits := by
  have hrequest := parses_requestType tls_readsSome rq
  cases f with
  | ls dirpath => exact hstalls.elim
  | create dirpath mode options => exact hstalls.elim
  | hash algorithm dirHashOpts filepath => exact hstalls.elim
  | link v =>
    obtain ⟨hrq,hfst,hsnd,_⟩ := hfits
    obtain ⟨hne,hempty⟩ := hstalls
    have hlen : v.1.length ≠ 0 := fun h0 => hne (List.length_eq_zero_iff.mp h0)
    have hbytes : rq.byte :: (Sent.link v).body = [rq.byte] ++
        (littleEndian 2 v.1.length ++ (littleEndian 2 v.2.length ++ (v.1 ++ []))) := by
      simp [Sent.body,hne,pairBytes,hempty]
    rw [hbytes]
    refine hrequest.stops ?_
    rw [if_neg (by rw [hrq]; decide),if_neg (by rw [hrq]; decide),if_pos hrq]
    refine Stops.map ?_
    refine (parses_u16 tls_readsSome hfst).stops ((parses_u16 tls_readsSome hsnd).stops ?_)
    rw [if_neg hlen]
    exact (tls_readsSome v.1 hne).stops (tls_waits _).bind
  | stats dirpath =>
    obtain ⟨hrq,hlen⟩ := hfits
    obtain ⟨h0,h1,h2,hne⟩ := hstalls
    obtain ⟨turns,rfl⟩ := Nat.exists_eq_add_of_le hturns
    have hbytes : rq.byte :: (Sent.stats dirpath).body = [rq.byte] ++ (stringBytes dirpath ++ []) := by
      simp [Sent.body]
    rw [hbytes]
    refine hrequest.stops ?_
    rw [if_neg (by rw [hrq]; decide),if_neg (by rw [hrq]; decide),if_neg (by rw [hrq]; decide),
      if_pos hrq,stats_request,h0,h1,h2]
    refine Stops.map ?_
    rw [show 2 + turns = turns + 1 + 1 by omega]
    refine (parses_string tls_readsSome hlen).stops ?_
    rw [if_neg hne]
    exact tls_waits_string.bind.bind

/-- With all the bytes of a request in an open ring, and no others, its handler reads what it needs
without waiting for more, unless it is a link to nothing or a multiple stats of a path; then it
waits. -/
theorem server_reads_request {p p' : Proxy} {errno : Nat} {rb : RingBuffer} {cs : List Chunk}
    (hturns : 2 ≤ turns) (hsent : client_request errno rq p = .ok (some f) p')
    (hcs : p'.rcl.out = p.rcl.out ++ cs) (hring : RingAt rb (cs.flatMap Chunk.encode)) :
    ((∃ r rb', server_request tlsSource access turns rb = .ok r rb') ↔ ¬ f.Stalls rq) ∧
      (f.Stalls rq → ∃ rb', server_request tlsSource access turns rb = .error .waits rb') := by
  have hbytes := client_request_sends errno rq p
  unfold wp at hbytes
  rw [hsent] at hbytes
  obtain ⟨bs,hbs,hrcl⟩ := hbytes
  obtain ⟨hfits,rfl⟩ := hbs f rfl
  have hring : RingAt rb (rq.byte :: f.body) := by
    have hout : p.rcl.out ++ cs = p.rcl.out ++ [.bytes (rq.byte :: f.body)] := by
      rw [← hcs,hrcl,flushed,if_neg (by simp)]
      rfl
    rw [List.append_cancel_left hout] at hring
    simpa [Chunk.encode] using hring
  have hstall : f.Stalls rq →
      ∃ rb', server_request tlsSource access turns rb = .error .waits rb' := fun hs =>
    (server_request_stalls hturns hfits hs).error hring
  refine ⟨⟨fun hdone hs => ?_,fun hgo => ?_⟩,hstall⟩
  · obtain ⟨r,rb',hdone⟩ := hdone
    obtain ⟨rb'',hwait⟩ := hstall hs
    rw [hwait] at hdone
    simp at hdone
  · obtain ⟨bs,left,r,hsplit,hparse⟩ :=
      @server_request_parses _ _ _ _ access turns tls_readsSome rq f (by omega) hfits hgo
    rw [hsplit] at hring
    obtain ⟨r',rb',hx,_⟩ := ok_of_wp (hparse rb left hring)
    exact ⟨r',rb',hx⟩

def ringHolding (capacity : Int) (bs : Str) : RingBuffer where
  closed := false
  brokenConnection := false
  capacity := capacity
  ringbuffer := fun i => bs.getD i 0
  readIdx := 0
  writeIdx := bs.length

theorem ringAt_ringHolding {c : Nat} {bs : Str} (hfit : 3*c < 2^31) (hbs : bs.length < c) :
    RingAt (ringHolding c bs) bs := by
  have hholds : (ringHolding c bs).Holds c 0 bs.length :=
    ⟨rfl,rfl,by simp [ringHolding,Nat.mod_eq_of_lt hbs],hbs,by omega,hfit⟩
  refine ⟨rfl,⟨c,0,_,hholds⟩,?_⟩
  rw [hholds.content_eq,Circular.window_eq_slice (by omega)]
  refine List.ext_getElem (by simp) fun i hi hi' => ?_
  simp [Circular.slice,ringHolding,hi']

/-- The local client asks for a link of "a" as `link`, and the server has the proxy's bytes. -/
def linkRequest (link : Str) : Proxy where
  cl := ⟨littleEndian 2 1 ++ littleEndian 2 link.length ++ [97] ++ link,[],none,false⟩
  rcl := ⟨[],[],none,false⟩
  buffer := []

theorem server_reads_request_link : ∃ p' r rb',
    client_request 0 ⟨ACTION_LINK,0⟩ (linkRequest [98]) = .ok (some (.link ([97],[98]))) p' ∧
    server_request tlsSource (fun _ => false) 2
      (ringHolding 1048576 (p'.rcl.out.flatMap Chunk.encode)) = .ok r rb' := by
  have hrun : client_request 0 ⟨ACTION_LINK,0⟩ (linkRequest [98]) =
      .ok (some (.link ([97],[98]))) { linkRequest [98] with
        cl := ⟨[],[],none,false⟩
        rcl := ⟨[],[.bytes [23,1,0,1,0,97,98]],none,false⟩ } := rfl
  have hread := @server_reads_request _ _ (fun _ => false) _ _ _ _ _ _ (Nat.le_refl 2) hrun rfl
    (ringAt_ringHolding (c := 1048576) (by decide) (by decide))
  obtain ⟨r,rb',hdone⟩ := hread.1.mpr (by simp [Sent.Stalls])
  exact ⟨_,r,rb',hrun,hdone⟩

/-- A link with an empty path, and a multiple stats, leave the server waiting. -/
theorem server_waits_for_nothing :
    (∃ p' rb', client_request 0 ⟨ACTION_LINK,0⟩ (linkRequest []) = .ok (some (.link ([97],[]))) p' ∧
      server_request tlsSource (fun _ => false) 2
        (ringHolding 1048576 (p'.rcl.out.flatMap Chunk.encode)) = .error .waits rb') ∧
    ∃ p p' rb', client_request 0 ⟨ACTION_STATS,4⟩ p = .ok (some (.stats [97])) p' ∧
      p.rcl.out = [] ∧ server_request tlsSource (fun _ => false) 2
        (ringHolding 1048576 (p'.rcl.out.flatMap Chunk.encode)) = .error .waits rb' := by
  have hring : ∀ bs : Str, bs.length < 1048576 → RingAt (ringHolding 1048576 bs) bs := fun bs hbs =>
    ringAt_ringHolding (c := 1048576) (by decide) hbs
  constructor
  · have hwait := @server_request_stalls _ _ (fun _ => false) _ (Nat.le_refl 2)
      (show (Sent.link ([97],[])).Fits ⟨ACTION_LINK,0⟩ from ⟨rfl,by decide,by decide,by simp⟩)
      ⟨by simp,rfl⟩
    obtain ⟨rb',hrb⟩ := hwait.error (hring _ (by decide))
    exact ⟨_,rb',rfl,hrb⟩
  · have hwait := @server_request_stalls _ _ (fun _ => false) _ (Nat.le_refl 2)
      (show (Sent.stats [97]).Fits ⟨ACTION_STATS,4⟩ from ⟨rfl,by decide⟩)
      ⟨by decide,by decide,by decide,by simp⟩
    obtain ⟨rb',hrb⟩ := hwait.error (hring _ (by decide))
    exact ⟨⟨⟨[1,0,97],[],none,false⟩,⟨[],[],none,false⟩,[]⟩,_,rb',rfl,rfl,hrb⟩

end RootHelper
