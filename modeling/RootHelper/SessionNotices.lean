import Mathlib.Logic.Function.Basic
import RootHelper.Control.Systems
import RootHelper.FreeNames

/-!
What the threads of a remote server tell the local client over one socket: which clients connect, with the
hash of the session's secret, and which disconnect. Each notice is one write, and none of the threads waits
for another.
-/

set_option autoImplicit false

namespace RootHelper
open Posix Control

/-- The other end of an accepted connection, as `getpeername` and `inet_ntop` give it: the text fits into
`INET6_ADDRSTRLEN` bytes. -/
structure Peer where
  v6 : Bool
  ipstr : Str
  port : Fin 65536
  short : ipstr.length ≤ 45

def Peer.getIPAndPortFromDesc (peer : Peer) : Str :=
  if peer.v6 then [91] ++ peer.ipstr ++ [93,58] ++ toStr peer.port
  else peer.ipstr ++ [58] ++ toStr peer.port

theorem Peer.length_name (peer : Peer) : peer.getIPAndPortFromDesc.length < 256 := by
  have hport : (toStr peer.port).length ≤ 5 := by
    rw [toStr,text,List.length_map]
    have hsmall := peer.port.isLt
    exact (Nat.length_toDigits_le_iff (by decide) (by decide)).mpr (by omega)
  have hip := peer.short
  unfold Peer.getIPAndPortFromDesc
  split <;> simp only [List.length_append,List.length_cons,List.length_nil] <;> omega

/-- A SHA-256 digest. -/
structure SharedHash where
  bytes : Str
  length : bytes.length = 32

inductive Notice where
  | connect (peer : Peer) (sharedHash : SharedHash)
  | disconnect (peer : Peer)

namespace Notice

def encode : Notice → Str
  | connect peer sharedHash => 0x00 :: .ofNat peer.getIPAndPortFromDesc.length ::
      (peer.getIPAndPortFromDesc ++ sharedHash.bytes)
  | disconnect peer => 0xFF :: .ofNat peer.getIPAndPortFromDesc.length :: peer.getIPAndPortFromDesc

end Notice

/-- What a notice says, without the way the name came about. -/
inductive Said where
  | connected (clientIPAndPort sharedHash : Str)
  | disconnected (clientIPAndPort : Str)
  deriving DecidableEq, Repr

def Notice.said : Notice → Said
  | connect peer sharedHash => .connected peer.getIPAndPortFromDesc sharedHash.bytes
  | disconnect peer => .disconnected peer.getIPAndPortFromDesc

/-- One notice from the front, if all of it is there. -/
def readNotice : Str → Option (Said × Str)
  | x :: l :: rest =>
    if x = 0x00 then
      if l.toNat + 32 ≤ rest.length then
        some (.connected (rest.take l.toNat) ((rest.drop l.toNat).take 32),rest.drop (l.toNat + 32))
      else none
    else if x = 0xFF then
      if l.toNat ≤ rest.length then some (.disconnected (rest.take l.toNat),rest.drop l.toNat) else none
    else none
  | _ => none

/-- All that are there, and what has come of the next one. -/
def readNotices : Nat → Str → List Said × Str
  | 0, s => ([],s)
  | turns+1, s =>
    match readNotice s with
    | none => ([],s)
    | some (said,rest) =>
      let (more,tail) := readNotices turns rest
      (said :: more,tail)

section Reading

theorem toNat_length (peer : Peer) :
    (UInt8.ofNat peer.getIPAndPortFromDesc.length).toNat = peer.getIPAndPortFromDesc.length := by
  rw [UInt8.toNat_ofNat',Nat.mod_eq_of_lt peer.length_name]

theorem readNotice_encode (m : Notice) (rest : Str) : readNotice (m.encode ++ rest) = some (m.said,rest) := by
  cases m with
  | connect peer sharedHash =>
    have hhash := sharedHash.length
    simp only [Notice.encode,List.cons_append,readNotice,toNat_length,if_true,List.append_assoc]
    rw [if_pos (by simp only [List.length_append]; omega),List.take_left,List.drop_left,
      List.take_left' hhash,← List.drop_drop,List.drop_left,List.drop_left' hhash]
    rfl
  | disconnect peer =>
    simp only [Notice.encode,List.cons_append,readNotice,toNat_length]
    rw [if_neg (by decide),if_true,if_pos (by simp only [List.length_append]; omega),List.take_left,
      List.drop_left]
    rfl

theorem readNotice_part {m : Notice} {s : Str} (h : s <+: m.encode) (hne : s ≠ m.encode) :
    readNotice s = none := by
  have hlen : s.length < m.encode.length := by
    refine Nat.lt_of_le_of_ne h.length_le fun heq => hne (h.eq_of_length heq)
  rcases s with _ | ⟨x,_ | ⟨l,rest⟩⟩
  · rfl
  · rfl
  cases m with
  | connect peer sharedHash =>
    have hhash := sharedHash.length
    simp only [Notice.encode,List.cons_prefix_cons] at h
    obtain ⟨rfl,rfl,_⟩ := h
    simp only [Notice.encode,List.length_cons,List.length_append] at hlen
    simp only [readNotice,toNat_length,if_true]
    rw [if_neg (by omega)]
  | disconnect peer =>
    simp only [Notice.encode,List.cons_prefix_cons] at h
    obtain ⟨rfl,rfl,_⟩ := h
    simp only [Notice.encode,List.length_cons] at hlen
    simp only [readNotice,toNat_length]
    rw [if_neg (by decide),if_true,if_neg (by omega)]

/-- Whole notices are read as what they are, whatever stands behind them. -/
theorem readNotices_append (l : List Notice) (rest : Str) {turns : Nat} (hturns : l.length ≤ turns) :
    readNotices turns (l.flatMap Notice.encode ++ rest) =
      (l.map Notice.said ++ (readNotices (turns - l.length) rest).1,
        (readNotices (turns - l.length) rest).2) := by
  induction l generalizing turns with
  | nil => rfl
  | cons m l ih =>
    rw [List.length_cons] at hturns
    cases turns with
    | zero => omega
    | succ turns =>
      rw [List.flatMap_cons,List.append_assoc,readNotices,readNotice_encode]
      simp only
      rw [ih (by omega),List.length_cons,Nat.add_sub_add_right]
      rfl

theorem readNotices_none {s : Str} (h : readNotice s = none) (turns : Nat) :
    readNotices turns s = ([],s) := by
  cases turns with
  | zero => rfl
  | succ turns => rw [readNotices,h]

end Reading

/-- Where a session is. Its handshake is completed by the thread that receives, which the other one joins
before it tells of the end. -/
inductive NoticePlace where
  | unborn
  | handshaking (peer : Peer)
  | live (peer : Peer)
  /-- Behind the event loop. -/
  | leaving (established : Bool) (peer : Peer)
  /-- Behind a short write, before `_Exit`. -/
  | failing (peer : Peer)
  | ended

inductive WriteOutcome where
  | whole
  | short (written : Nat)
  /-- With -1 as the result. -/
  | fails
  deriving DecidableEq, Repr

/-- A write that has not failed: so many bytes of the notice were taken. -/
structure NoticeWrite (n : Nat) where
  thread : Fin n
  notice : Notice
  written : Nat

namespace NoticeWrite

variable {n : Nat}

def bytes (w : NoticeWrite n) : Str := w.notice.encode.take w.written

def whole (w : NoticeWrite n) : Bool := w.notice.encode.length ≤ w.written

end NoticeWrite

structure XreServer (n : Nat) where
  place : Fin n → NoticePlace
  /-- What has been written to `rhss_local`. -/
  stream : Str
  log : List (NoticeWrite n)
  exited : Bool

inductive XreAct (n : Nat) where
  | accept (thread : Fin n) (peer : Peer)
  | tls_session_established (thread : Fin n) (sharedHash : SharedHash) (outcome : WriteOutcome)
  | eventLoopEnds (thread : Fin n)
  | on_server_session_exit_func (thread : Fin n) (outcome : WriteOutcome)
  | exits (thread : Fin n)
  /-- For whatever other reason. -/
  | processExits

namespace NoticePlace

/-- The client of a session that is under way. -/
def client : NoticePlace → Option Peer
  | handshaking peer | live peer | leaving _ peer | failing peer => some peer
  | _ => none

/-- The client of one whose handshake has been completed. -/
def established : NoticePlace → Option Peer
  | live peer | leaving true peer => some peer
  | _ => none

end NoticePlace

namespace XreServer

variable {n : Nat}

def start : XreServer n := ⟨fun _ => .unborn,[],[],false⟩

def goes (s : XreServer n) (thread : Fin n) (place : NoticePlace) : XreServer n :=
  { s with place := Function.update s.place thread place }

def wrote (s : XreServer n) (w : NoticeWrite n) (place : NoticePlace) : XreServer n :=
  { s with stream := s.stream ++ w.bytes, log := s.log ++ [w] }.goes w.thread place

/-- One write of a notice, and where the thread goes then: behind a short one to the end of the process;
-1 is not noticed because it is compared as an unsigned number. -/
def write (s : XreServer n) (thread : Fin n) (m : Notice) (peer : Peer) (place : NoticePlace) :
    WriteOutcome → Option (XreServer n)
  | .whole => some (s.wrote ⟨thread,m,m.encode.length⟩ place)
  | .short written =>
    if written < m.encode.length then some (s.wrote ⟨thread,m,written⟩ (.failing peer)) else none
  | .fails => some (s.goes thread place)

def step (a : XreAct n) (s : XreServer n) : Option (XreServer n) :=
  if s.exited then none
  else
    match a with
    | .accept thread peer =>
      match s.place thread with
      | .unborn => some (s.goes thread (.handshaking peer))
      | _ => none
    | .tls_session_established thread sharedHash outcome =>
      match s.place thread with
      | .handshaking peer => s.write thread (.connect peer sharedHash) peer (.live peer) outcome
      | .leaving false peer =>
        s.write thread (.connect peer sharedHash) peer (.leaving true peer) outcome
      | _ => none
    | .eventLoopEnds thread =>
      match s.place thread with
      | .handshaking peer => some (s.goes thread (.leaving false peer))
      | .live peer => some (s.goes thread (.leaving true peer))
      | _ => none
    | .on_server_session_exit_func thread outcome =>
      match s.place thread with
      | .leaving _ peer => s.write thread (.disconnect peer) peer .ended outcome
      | _ => none
    | .exits thread =>
      match s.place thread with
      | .failing _ => some { s with exited := true }
      | _ => none
    | .processExits => some { s with exited := true }

end XreServer

/-! ### What holds in every run -/

/-- The notices a session has written whole when it is at this place, when some of the writes may have
failed. -/
def NoticePlace.Told : NoticePlace → List Notice → Prop
  | .live peer, l | .leaving true peer, l | .failing peer, l =>
    ∃ sharedHash, l.Sublist [.connect peer sharedHash]
  | .ended, l => ∃ peer, l.Sublist [.disconnect peer] ∨
    ∃ sharedHash, l.Sublist [.connect peer sharedHash,.disconnect peer]
  | _, l => l = []

namespace XreServer

variable {n : Nat} {s t : XreServer n}

/-- The whole notices of one session. -/
def toldBy (s : XreServer n) (thread : Fin n) : List Notice :=
  (s.log.filter fun w => w.thread = thread ∧ w.whole).map NoticeWrite.notice

/-- A session whose write was short does nothing more but end the process. -/
structure Framed (s : XreServer n) : Prop where
  stream : s.stream = s.log.flatMap NoticeWrite.bytes
  short : ∀ w ∈ s.log, w.whole = false → ∃ peer, s.place w.thread = .failing peer
  told : ∀ thread, (s.place thread).Told (s.toldBy thread)

@[simp] theorem goes_place_self (thread : Fin n) (place : NoticePlace) :
    (s.goes thread place).place thread = place := by
  simp [goes]

theorem goes_place_of_ne {thread thread' : Fin n} (place : NoticePlace) (h : thread' ≠ thread) :
    (s.goes thread place).place thread' = s.place thread' := by
  simp [goes,h]

@[simp] theorem wrote_place_self (w : NoticeWrite n) (place : NoticePlace) :
    (s.wrote w place).place w.thread = place := goes_place_self _ _

theorem wrote_place_of_ne {w : NoticeWrite n} {thread : Fin n} (place : NoticePlace)
    (h : thread ≠ w.thread) : (s.wrote w place).place thread = s.place thread := goes_place_of_ne place h

theorem Framed.goes (h : s.Framed) {thread : Fin n} {place : NoticePlace}
    (hgoes : ∀ peer, s.place thread ≠ .failing peer) (hplace : place.Told (s.toldBy thread)) :
    (s.goes thread place).Framed where
  stream := h.stream
  short w hw hpart := by
    obtain ⟨peer,hpeer⟩ := h.short w hw hpart
    refine ⟨peer,?_⟩
    have hother : w.thread ≠ thread := fun he => hgoes peer (by rw [← he,hpeer])
    rw [goes_place_of_ne place hother,hpeer]
  told thread' := by
    by_cases hthread : thread' = thread
    · subst hthread
      rw [goes_place_self]
      exact hplace
    · rw [goes_place_of_ne place hthread]
      exact h.told thread'

theorem Framed.writes (h : s.Framed) {w : NoticeWrite n} {place : NoticePlace}
    (hgoes : ∀ peer, s.place w.thread ≠ .failing peer)
    (hpart : w.whole = false → ∃ peer, place = .failing peer)
    (hplace : place.Told (s.toldBy w.thread ++ if w.whole then [w.notice] else [])) :
    (s.wrote w place).Framed where
  stream := by
    change s.stream ++ w.bytes = (s.log ++ [w]).flatMap NoticeWrite.bytes
    rw [h.stream]
    simp
  short w' hw' hpart' := by
    rcases List.mem_append.mp hw' with hw' | hw'
    · obtain ⟨peer,hpeer⟩ := h.short w' hw' hpart'
      have hother : w'.thread ≠ w.thread := fun he => hgoes peer (by rw [← he,hpeer])
      exact ⟨peer,by rw [wrote_place_of_ne place hother,hpeer]⟩
    · rw [List.mem_singleton.mp hw'] at hpart' ⊢
      rw [wrote_place_self]
      exact hpart hpart'
  told thread' := by
    by_cases hthread : thread' = w.thread
    · rw [hthread,wrote_place_self]
      cases hw : w.whole <;> simpa [toldBy,wrote,XreServer.goes,hw] using hplace
    · rw [wrote_place_of_ne place hthread]
      simpa [toldBy,wrote,XreServer.goes,Ne.symm hthread] using h.told thread'

theorem Framed.write (h : s.Framed) {thread : Fin n} {m : Notice} {peer : Peer} {place : NoticePlace}
    {outcome : WriteOutcome} (hgoes : ∀ peer, s.place thread ≠ .failing peer)
    (hwrite : s.write thread m peer place outcome = some t)
    (hwhole : place.Told (s.toldBy thread ++ [m])) (hfails : place.Told (s.toldBy thread))
    (hshort : NoticePlace.Told (.failing peer) (s.toldBy thread)) : t.Framed := by
  cases outcome with
  | whole =>
    obtain rfl := Option.some.inj hwrite
    have hall : (⟨thread,m,m.encode.length⟩ : NoticeWrite n).whole = true := by
      simp [NoticeWrite.whole]
    exact h.writes hgoes (fun hpart => by simp [hall] at hpart) (by rwa [if_pos hall])
  | short written =>
    rw [XreServer.write] at hwrite
    split at hwrite
    · rename_i hpart
      obtain rfl := Option.some.inj hwrite
      have hnot : (⟨thread,m,written⟩ : NoticeWrite n).whole = false := by
        simp [NoticeWrite.whole,hpart]
      refine h.writes hgoes (fun _ => ⟨peer,rfl⟩) ?_
      simpa [hnot] using hshort
    · cases hwrite
  | fails =>
    obtain rfl := Option.some.inj hwrite
    exact h.goes hgoes hfails

theorem framed_step (h : s.Framed) {a : XreAct n} (hstep : step a s = some t) : t.Framed := by
  unfold step at hstep
  split at hstep
  · cases hstep
  cases a with
  | accept thread peer =>
    have hbefore := h.told thread
    cases hplace : s.place thread with
    | unborn =>
      simp only [hplace] at hstep hbefore
      obtain rfl := Option.some.inj hstep
      exact h.goes (by simp [hplace]) hbefore
    | _ => simp only [hplace] at hstep; cases hstep
  | tls_session_established thread sharedHash outcome =>
    have hbefore := h.told thread
    have connects : ∀ peer place, (∀ peer', s.place thread ≠ .failing peer') →
        s.toldBy thread = [] → s.write thread (.connect peer sharedHash) peer place outcome = some t →
        (∀ l, (∃ sharedHash, l.Sublist [.connect peer sharedHash]) → place.Told l) → t.Framed := by
      intro peer place hgoes hnone hwrite hnext
      refine h.write hgoes hwrite (hnext _ ⟨sharedHash,?_⟩) (hnext _ ⟨sharedHash,?_⟩) ⟨sharedHash,?_⟩
      · rw [hnone]
        exact List.Sublist.refl _
      · rw [hnone]
        exact List.nil_sublist _
      · rw [hnone]
        exact List.nil_sublist _
    cases hplace : s.place thread with
    | handshaking peer =>
      simp only [hplace] at hstep hbefore
      exact connects peer _ (by simp [hplace]) hbefore hstep fun _ h => h
    | leaving established peer =>
      cases established with
      | true => simp only [hplace] at hstep; cases hstep
      | false =>
        simp only [hplace] at hstep hbefore
        exact connects peer _ (by simp [hplace]) hbefore hstep fun _ h => h
    | _ => simp only [hplace] at hstep; cases hstep
  | eventLoopEnds thread =>
    have hbefore := h.told thread
    cases hplace : s.place thread with
    | handshaking peer =>
      simp only [hplace] at hstep hbefore
      obtain rfl := Option.some.inj hstep
      exact h.goes (by simp [hplace]) hbefore
    | live peer =>
      simp only [hplace] at hstep hbefore
      obtain rfl := Option.some.inj hstep
      exact h.goes (by simp [hplace]) hbefore
    | _ => simp only [hplace] at hstep; cases hstep
  | on_server_session_exit_func thread outcome =>
    have hbefore := h.told thread
    cases hplace : s.place thread with
    | leaving established peer =>
      simp only [hplace] at hstep
      cases established with
      | true =>
        rw [hplace] at hbefore
        obtain ⟨sharedHash,hsub⟩ := hbefore
        refine h.write (by simp [hplace]) hstep
          ⟨peer,.inr ⟨sharedHash,hsub.append (List.Sublist.refl _)⟩⟩ ?_ ⟨sharedHash,hsub⟩
        exact ⟨peer,.inr ⟨sharedHash,hsub.trans (List.sublist_append_left _ _)⟩⟩
      | false =>
        rw [hplace] at hbefore
        have hnone : s.toldBy thread = [] := hbefore
        refine h.write (by simp [hplace]) hstep ⟨peer,.inl ?_⟩ ⟨peer,.inl ?_⟩ ?_
        · rw [hnone]
          exact List.Sublist.refl _
        · rw [hnone]
          exact List.nil_sublist _
        · rw [hnone]
          exact ⟨⟨List.replicate 32 0,by simp⟩,List.nil_sublist _⟩
    | _ => simp only [hplace] at hstep; cases hstep
  | exits thread =>
    cases hplace : s.place thread with
    | failing peer =>
      simp only [hplace] at hstep
      obtain rfl := Option.some.inj hstep
      exact ⟨h.stream,h.short,h.told⟩
    | _ => simp only [hplace] at hstep; cases hstep
  | processExits =>
    obtain rfl := Option.some.inj hstep
    exact ⟨h.stream,h.short,h.told⟩

theorem framed_start : (start : XreServer n).Framed where
  stream := rfl
  short _ h := by cases h
  told _ := rfl

theorem length_encode (m : Notice) : 0 < m.encode.length := by
  cases m <;> simp [Notice.encode]

theorem length_le_encoded (l : List Notice) : l.length ≤ (l.flatMap Notice.encode).length := by
  induction l with
  | nil => exact Nat.le_refl _
  | cons m l ih =>
    have hpos := length_encode m
    rw [List.flatMap_cons,List.length_append,List.length_cons]
    omega

theorem bytes_of_whole {l : List (NoticeWrite n)} (h : ∀ w ∈ l, w.whole = true) :
    l.flatMap NoticeWrite.bytes = (l.map NoticeWrite.notice).flatMap Notice.encode := by
  induction l with
  | nil => rfl
  | cons w l ih =>
    have hw : w.notice.encode.length ≤ w.written := by simpa [NoticeWrite.whole] using h w (by simp)
    rw [List.flatMap_cons,List.map_cons,List.flatMap_cons,ih fun w' hw' => h w' (by simp [hw']),
      NoticeWrite.bytes,List.take_of_length_le hw]

/-- What stands in the stream up to the first short write, what a reader makes of it, and what is left to
him as long as nobody writes behind it. -/
structure Framing (s : XreServer n) (before behind : List (NoticeWrite n)) : Prop where
  log : s.log = before ++ behind
  whole : ∀ w ∈ before, w.whole = true
  short : ∀ w ∈ behind.head?, w.whole = false ∧ ∃ peer, s.place w.thread = .failing peer
  reads : before.map (Notice.said ∘ NoticeWrite.notice) <+:
    (readNotices (s.stream.length+1) s.stream).1
  alone : behind.length ≤ 1 → readNotices (s.stream.length+1) s.stream =
    (before.map (Notice.said ∘ NoticeWrite.notice),behind.flatMap NoticeWrite.bytes)

theorem Framed.framing (h : s.Framed) : s.Framing (s.log.takeWhile NoticeWrite.whole)
    (s.log.dropWhile NoticeWrite.whole) := by
  generalize hbefore : s.log.takeWhile NoticeWrite.whole = before
  generalize hbehind : s.log.dropWhile NoticeWrite.whole = behind
  have hlog : s.log = before ++ behind := by rw [← hbefore,← hbehind,List.takeWhile_append_dropWhile]
  have hwhole : ∀ w ∈ before, w.whole = true := fun w hw =>
    List.mem_takeWhile_imp (hbefore ▸ hw)
  have hshort : ∀ w ∈ behind.head?, w.whole = false := by
    intro w hw
    have hhead := List.head?_dropWhile_not NoticeWrite.whole s.log
    rw [hbehind,hw] at hhead
    simpa using hhead
  have hstream : s.stream = (before.map NoticeWrite.notice).flatMap Notice.encode ++
      behind.flatMap NoticeWrite.bytes := by
    rw [h.stream,hlog,List.flatMap_append,bytes_of_whole hwhole]
  have hlen : (before.map NoticeWrite.notice).length ≤ s.stream.length+1 := by
    have hle := length_le_encoded (before.map NoticeWrite.notice)
    rw [hstream,List.length_append]
    omega
  have hread := readNotices_append (before.map NoticeWrite.notice) (behind.flatMap NoticeWrite.bytes) hlen
  rw [← hstream,List.map_map] at hread
  refine ⟨hlog,hwhole,fun w hw => ⟨hshort w hw,?_⟩,?_,fun halone => ?_⟩
  · refine h.short w ?_ (hshort w hw)
    rw [hlog]
    exact List.mem_append_right _ (List.mem_of_mem_head? hw)
  · rw [hread]
    exact List.prefix_append _ _
  · have hnone : readNotice (behind.flatMap NoticeWrite.bytes) = none := by
      rcases behind with _ | ⟨w,_ | ⟨w',l⟩⟩
      · rfl
      · have hpart : w.written < w.notice.encode.length := by
          simpa [NoticeWrite.whole] using hshort w rfl
        rw [List.flatMap_cons,List.flatMap_nil,List.append_nil,NoticeWrite.bytes]
        refine readNotice_part (List.take_prefix _ _) fun hall => ?_
        have hsame := congrArg List.length hall
        rw [List.length_take] at hsame
        omega
      · simp at halone
    rw [hread,readNotices_none hnone,List.append_nil]

/-- In whatever order the sessions of any number of clients write, and whichever writes fail or are short,
the local client can tell the notices apart up to the first short one: they come whole, each session's own
in their order and none twice. The session of a short write does nothing more but end the process. -/
theorem notices_framed (h : Reachable step (fun _ _ => True) start s) :
    (∃ before behind, s.Framing before behind) ∧
      (∀ w ∈ s.log, w.whole = false → ∃ peer, s.place w.thread = .failing peer) ∧
      ∀ thread, (s.place thread).Told (s.toldBy thread) := by
  have hframed := h.invariant framed_start fun _ _ _ hs _ hstep => framed_step hs hstep
  exact ⟨⟨_,_,hframed.framing⟩,hframed.short,hframed.told⟩

def near : Peer := ⟨false,[49],7,by decide⟩

def far : Peer := ⟨true,[58,58,49],443,by decide⟩

def sevens : SharedHash := ⟨List.replicate 32 7,by decide⟩

/-- Two clients: only a part of the first one's end is written, and the notice of the second one's end comes
behind it before the process exits. -/
def twoClients : List (XreAct 2) :=
  [.accept 0 near,.accept 1 far,.tls_session_established 1 sevens .fails,
    .tls_session_established 0 sevens .whole,.eventLoopEnds 1,.eventLoopEnds 0,
    .on_server_session_exit_func 0 (.short 3),.on_server_session_exit_func 1 .whole,.exits 0]

theorem notices_framed_twoClients : ∃ s : XreServer 2,
    ((∃ before behind, s.Framing before behind) ∧
      (∀ w ∈ s.log, w.whole = false → ∃ peer, s.place w.thread = .failing peer) ∧
      ∀ thread, (s.place thread).Told (s.toldBy thread)) ∧
    s.exited = true ∧ s.log.map NoticeWrite.whole = [true,false,true] := by
  obtain ⟨s,h,hends⟩ := @exists_reachable _ _ step (fun _ _ => True) (start : XreServer 2) _
    (fun s => s.exited && s.log.map NoticeWrite.whole == [true,false,true]) twoClients
    (by decide +kernel)
  simp only [Bool.and_eq_true,beq_iff_eq] at hends
  exact ⟨s,notices_framed h,hends⟩

/-! ### Who is connected -/

/-- The clients a reader of the notices takes to be connected, each by its name. -/
def connectedClients : List Said → List Str :=
  List.foldl (fun shown said => match said with
    | .connected clientIPAndPort _ => clientIPAndPort :: shown
    | .disconnected clientIPAndPort => shown.filter (· ≠ clientIPAndPort)) []

/-- Every write is whole, and no client is accepted under the name of another one whose session is still
under way. -/
def Distinct (s : XreServer n) : XreAct n → Prop
  | .accept _ peer => ∀ thread, ∀ peer' ∈ (s.place thread).client,
      peer'.getIPAndPortFromDesc ≠ peer.getIPAndPortFromDesc
  | .tls_session_established _ _ outcome | .on_server_session_exit_func _ outcome => outcome = .whole
  | _ => True

instance : ∀ (s : XreServer n) (a : XreAct n), Decidable (Distinct s a)
  | s, .accept _ peer => inferInstanceAs (Decidable (∀ thread, ∀ peer' ∈ (s.place thread).client,
      peer'.getIPAndPortFromDesc ≠ peer.getIPAndPortFromDesc))
  | _, .tls_session_established _ _ outcome => inferInstanceAs (Decidable (outcome = .whole))
  | _, .on_server_session_exit_func _ outcome => inferInstanceAs (Decidable (outcome = .whole))
  | _, .eventLoopEnds _ => .isTrue trivial
  | _, .exits _ => .isTrue trivial
  | _, .processExits => .isTrue trivial

structure Shown (s : XreServer n) : Prop where
  distinct : ∀ thread thread' peer peer', (s.place thread).client = some peer →
    (s.place thread').client = some peer' → peer.getIPAndPortFromDesc = peer'.getIPAndPortFromDesc →
    thread = thread'
  shown : ∀ name, name ∈ connectedClients (s.log.map (Notice.said ∘ NoticeWrite.notice)) ↔
    ∃ thread peer, (s.place thread).established = some peer ∧ peer.getIPAndPortFromDesc = name
  whole : ∀ w ∈ s.log, w.whole = true

/-- The rest of a state after a thread has gone on. -/
structure GoesOn (s t : XreServer n) (thread : Fin n) (place : NoticePlace) : Prop where
  here : t.place thread = place
  others : ∀ thread', thread' ≠ thread → t.place thread' = s.place thread'

theorem goesOn_goes (s : XreServer n) (thread : Fin n) (place : NoticePlace) :
    GoesOn s (s.goes thread place) thread place := ⟨goes_place_self _ _,fun _ => goes_place_of_ne place⟩

theorem connectedClients_append (l : List Said) (m : Said) : connectedClients (l ++ [m]) = match m with
    | .connected clientIPAndPort _ => clientIPAndPort :: connectedClients l
    | .disconnected clientIPAndPort => (connectedClients l).filter (· ≠ clientIPAndPort) := by
  simp only [connectedClients,List.foldl_append,List.foldl_cons,List.foldl_nil]

section Steps

variable {thread : Fin n} {place : NoticePlace} {peer : Peer}

theorem GoesOn.distinct (hgo : GoesOn s t thread place) (hclient : ∀ peer, place.client = some peer →
    (s.place thread).client = some peer) (h : s.Shown) (thread₁ thread₂ : Fin n) (peer₁ peer₂ : Peer)
    (h₁ : (t.place thread₁).client = some peer₁) (h₂ : (t.place thread₂).client = some peer₂)
    (hsame : peer₁.getIPAndPortFromDesc = peer₂.getIPAndPortFromDesc) : thread₁ = thread₂ := by
  have before : ∀ thread' peer', (t.place thread').client = some peer' →
      (s.place thread').client = some peer' := by
    intro thread' peer' h'
    by_cases hthread : thread' = thread
    · subst hthread
      rw [hgo.here] at h'
      exact hclient peer' h'
    · rwa [hgo.others thread' hthread] at h'
  exact h.distinct _ _ _ _ (before _ _ h₁) (before _ _ h₂) hsame

theorem GoesOn.distinct_new (hgo : GoesOn s t thread place) (hclient : place.client = some peer)
    (hok : ∀ thread', ∀ peer' ∈ (s.place thread').client,
      peer'.getIPAndPortFromDesc ≠ peer.getIPAndPortFromDesc)
    (h : s.Shown) (thread₁ thread₂ : Fin n) (peer₁ peer₂ : Peer)
    (h₁ : (t.place thread₁).client = some peer₁) (h₂ : (t.place thread₂).client = some peer₂)
    (hsame : peer₁.getIPAndPortFromDesc = peer₂.getIPAndPortFromDesc) : thread₁ = thread₂ := by
  by_cases hthread₁ : thread₁ = thread <;> by_cases hthread₂ : thread₂ = thread
  · rw [hthread₁,hthread₂]
  · rw [hthread₁,hgo.here,hclient] at h₁
    rw [hgo.others thread₂ hthread₂] at h₂
    obtain rfl := Option.some.inj h₁
    exact absurd hsame.symm (hok _ _ h₂)
  · rw [hthread₂,hgo.here,hclient] at h₂
    rw [hgo.others thread₁ hthread₁] at h₁
    obtain rfl := Option.some.inj h₂
    exact absurd hsame (hok _ _ h₁)
  · rw [hgo.others thread₁ hthread₁] at h₁
    rw [hgo.others thread₂ hthread₂] at h₂
    exact h.distinct _ _ _ _ h₁ h₂ hsame

theorem GoesOn.quiet (hgo : GoesOn s t thread place) (hlog : t.log = s.log)
    (hestablished : place.established = (s.place thread).established) (h : s.Shown) (name : Str) :
    name ∈ connectedClients (t.log.map (Notice.said ∘ NoticeWrite.notice)) ↔
      ∃ thread' peer, (t.place thread').established = some peer ∧ peer.getIPAndPortFromDesc = name := by
  have same : ∀ thread', (t.place thread').established = (s.place thread').established := by
    intro thread'
    by_cases hthread : thread' = thread
    · rw [hthread,hgo.here,hestablished]
    · rw [hgo.others thread' hthread]
  simp only [hlog,same]
  exact h.shown name

theorem GoesOn.connects (hgo : GoesOn s t thread place) {sharedHash : SharedHash}
    {written : Nat} (hlog : t.log = s.log ++ [⟨thread,.connect peer sharedHash,written⟩])
    (hbefore : (s.place thread).established = none) (hestablished : place.established = some peer)
    (h : s.Shown) (name : Str) :
    name ∈ connectedClients (t.log.map (Notice.said ∘ NoticeWrite.notice)) ↔
      ∃ thread' peer, (t.place thread').established = some peer ∧ peer.getIPAndPortFromDesc = name := by
  rw [hlog,List.map_append]
  change name ∈ connectedClients (_ ++ [Notice.said (.connect peer sharedHash)]) ↔ _
  rw [connectedClients_append]
  simp only [Notice.said,List.mem_cons,h.shown]
  constructor
  · rintro (rfl | ⟨thread',peer',hpeer,hname⟩)
    · exact ⟨thread,peer,by rw [hgo.here,hestablished],rfl⟩
    · have hthread : thread' ≠ thread := by
        rintro rfl
        rw [hbefore] at hpeer
        cases hpeer
      exact ⟨thread',peer',by rwa [hgo.others thread' hthread],hname⟩
  · rintro ⟨thread',peer',hpeer,hname⟩
    by_cases hthread : thread' = thread
    · subst hthread
      rw [hgo.here,hestablished] at hpeer
      obtain rfl := Option.some.inj hpeer
      exact .inl hname.symm
    · rw [hgo.others thread' hthread] at hpeer
      exact .inr ⟨thread',peer',hpeer,hname⟩

theorem client_of_established {place : NoticePlace} (h : place.established = some peer) :
    place.client = some peer := by
  cases place with
  | live peer' => exact h
  | leaving established peer' =>
    cases established with
    | true => exact h
    | false => cases h
  | _ => cases h

theorem GoesOn.disconnects (hgo : GoesOn s t thread .ended) {written : Nat}
    (hlog : t.log = s.log ++ [⟨thread,.disconnect peer,written⟩]) (hclient : (s.place thread).client = some peer)
    (h : s.Shown) (name : Str) :
    name ∈ connectedClients (t.log.map (Notice.said ∘ NoticeWrite.notice)) ↔
      ∃ thread' peer, (t.place thread').established = some peer ∧ peer.getIPAndPortFromDesc = name := by
  rw [hlog,List.map_append]
  change name ∈ connectedClients (_ ++ [Notice.said (.disconnect peer)]) ↔ _
  rw [connectedClients_append]
  simp only [Notice.said,List.mem_filter,h.shown,decide_eq_true_eq]
  constructor
  · rintro ⟨⟨thread',peer',hpeer,hname⟩,hne⟩
    have hthread : thread' ≠ thread := by
      rintro rfl
      have hsame := (client_of_established hpeer).symm.trans hclient
      exact hne (by rw [← hname,Option.some.inj hsame])
    exact ⟨thread',peer',by rwa [hgo.others thread' hthread],hname⟩
  · rintro ⟨thread',peer',hpeer,hname⟩
    have hthread : thread' ≠ thread := by
      rintro rfl
      rw [hgo.here] at hpeer
      cases hpeer
    rw [hgo.others thread' hthread] at hpeer
    refine ⟨⟨thread',peer',hpeer,hname⟩,fun hsame => hthread ?_⟩
    exact h.distinct _ _ _ _ (client_of_established hpeer) hclient (hname.trans hsame)

end Steps

theorem write_whole {thread : Fin n} {m : Notice} {peer : Peer} {place : NoticePlace}
    {outcome : WriteOutcome} (hwrite : s.write thread m peer place outcome = some t)
    (hok : outcome = .whole) :
    GoesOn s t thread place ∧ t.log = s.log ++ [⟨thread,m,m.encode.length⟩] := by
  subst hok
  obtain rfl := Option.some.inj hwrite
  exact ⟨⟨goes_place_self _ _,fun _ => goes_place_of_ne place⟩,rfl⟩

theorem Shown.whole_next {thread : Fin n} {m : Notice} (h : s.Shown)
    (hlog : t.log = s.log ++ [⟨thread,m,m.encode.length⟩]) : ∀ w ∈ t.log, w.whole = true := by
  intro w hw
  rw [hlog] at hw
  rcases List.mem_append.mp hw with hw | hw
  · exact h.whole w hw
  · rw [List.mem_singleton.mp hw]
    simp [NoticeWrite.whole]

theorem Shown.same (h : s.Shown) (hplace : t.place = s.place) (hlog : t.log = s.log) : t.Shown := by
  refine ⟨?_,?_,?_⟩
  · rw [hplace]
    exact h.distinct
  · rw [hplace,hlog]
    exact h.shown
  · rw [hlog]
    exact h.whole

theorem shown_step (h : s.Shown) {a : XreAct n} (hok : Distinct s a) (hstep : step a s = some t) :
    t.Shown := by
  unfold step at hstep
  split at hstep
  · cases hstep
  cases a with
  | accept thread peer =>
    cases hplace : s.place thread with
    | unborn =>
      simp only [hplace] at hstep
      obtain rfl := Option.some.inj hstep
      have hgo := goesOn_goes s thread (.handshaking peer)
      exact ⟨hgo.distinct_new rfl hok h,hgo.quiet rfl (by rw [hplace]; rfl) h,h.whole⟩
    | _ => simp only [hplace] at hstep; cases hstep
  | tls_session_established thread sharedHash outcome =>
    have connects : ∀ peer place, (s.place thread).client = some peer →
        (s.place thread).established = none → NoticePlace.client place = some peer →
        place.established = some peer →
        s.write thread (.connect peer sharedHash) peer place outcome = some t → t.Shown := by
      intro peer place hclient hbefore hnext hestablished hwrite
      obtain ⟨hgo,hlog⟩ := write_whole hwrite hok
      refine ⟨hgo.distinct (fun _ hpeer => ?_) h,hgo.connects hlog hbefore hestablished h,
        h.whole_next hlog⟩
      rw [hclient,← hnext,hpeer]
    cases hplace : s.place thread with
    | handshaking peer =>
      simp only [hplace] at hstep
      exact connects peer _ (by rw [hplace]; rfl) (by rw [hplace]; rfl) rfl rfl hstep
    | leaving established peer =>
      cases established with
      | true => simp only [hplace] at hstep; cases hstep
      | false =>
        simp only [hplace] at hstep
        exact connects peer _ (by rw [hplace]; rfl) (by rw [hplace]; rfl) rfl rfl hstep
    | _ => simp only [hplace] at hstep; cases hstep
  | eventLoopEnds thread =>
    have leaves : ∀ place, place.client = (s.place thread).client →
        place.established = (s.place thread).established → (s.goes thread place).Shown := by
      intro place hclient hestablished
      have hgo := goesOn_goes s thread place
      exact ⟨hgo.distinct (fun _ hpeer => hclient ▸ hpeer) h,hgo.quiet rfl hestablished h,h.whole⟩
    cases hplace : s.place thread with
    | handshaking peer =>
      simp only [hplace] at hstep
      obtain rfl := Option.some.inj hstep
      exact leaves _ (by rw [hplace]; rfl) (by rw [hplace]; rfl)
    | live peer =>
      simp only [hplace] at hstep
      obtain rfl := Option.some.inj hstep
      exact leaves _ (by rw [hplace]; rfl) (by rw [hplace]; rfl)
    | _ => simp only [hplace] at hstep; cases hstep
  | on_server_session_exit_func thread outcome =>
    cases hplace : s.place thread with
    | leaving established peer =>
      simp only [hplace] at hstep
      obtain ⟨hgo,hlog⟩ := write_whole hstep hok
      exact ⟨hgo.distinct (fun _ hpeer => by cases hpeer) h,
        hgo.disconnects hlog (by rw [hplace]; rfl) h,h.whole_next hlog⟩
    | _ => simp only [hplace] at hstep; cases hstep
  | exits thread =>
    cases hplace : s.place thread with
    | failing peer =>
      simp only [hplace] at hstep
      obtain rfl := Option.some.inj hstep
      exact h.same rfl rfl
    | _ => simp only [hplace] at hstep; cases hstep
  | processExits =>
    obtain rfl := Option.some.inj hstep
    exact h.same rfl rfl

theorem shown_start : (start : XreServer n).Shown where
  distinct _ _ _ _ h := by cases h
  shown _ := by
    constructor
    · intro h
      cases h
    · rintro ⟨_,_,h,_⟩
      cases h
  whole _ h := by cases h

/-- The local client's view: at every time the clients that the notices read so far leave connected are just
the ones whose handshake is done and whose end has not been told. -/
theorem viewer_exact (h : Reachable step Distinct start s) (name : Str) :
    name ∈ connectedClients (readNotices (s.stream.length+1) s.stream).1 ↔
      ∃ thread peer, (s.place thread).established = some peer ∧ peer.getIPAndPortFromDesc = name := by
  have hframed : s.Framed := h.invariant framed_start fun _ _ _ hs _ hstep => framed_step hs hstep
  have hshown : s.Shown := h.invariant shown_start fun _ _ _ hs hok hstep => shown_step hs hok hstep
  have hall : s.log.dropWhile NoticeWrite.whole = [] := List.dropWhile_eq_nil_iff.mpr hshown.whole
  have hreads := hframed.framing
  have hlog := hreads.log
  rw [hall] at hreads hlog
  rw [List.append_nil] at hlog
  rw [hreads.alone (by simp),← hlog]
  exact hshown.shown name

theorem viewer_exact_twoClients : ∃ s : XreServer 2,
    (∀ name, name ∈ connectedClients (readNotices (s.stream.length+1) s.stream).1 ↔
      ∃ thread peer, (s.place thread).established = some peer ∧ peer.getIPAndPortFromDesc = name) ∧
    ((s.place 0).established.map Peer.getIPAndPortFromDesc,(s.place 1).established.isSome) =
      (some near.getIPAndPortFromDesc,false) := by
  obtain ⟨s,h,hends⟩ := @exists_reachable _ _ step Distinct (start : XreServer 2) _
    (fun s => ((s.place 0).established.map Peer.getIPAndPortFromDesc,(s.place 1).established.isSome) ==
      (some near.getIPAndPortFromDesc,false))
    [.accept 0 near,.accept 1 far,.tls_session_established 1 sevens .whole,
      .tls_session_established 0 sevens .whole,.eventLoopEnds 1,.on_server_session_exit_func 1 .whole]
    (by decide +kernel)
  exact ⟨s,viewer_exact h,by simpa using hends⟩

end XreServer

end RootHelper
