import RootHelper.RemoteBoundaries

/-!
Which handlers of a remote session ask for access. A path that is denied is not looked at by the listing,
by the statistics of one path and by the creation; the others do not ask.
-/

set_option autoImplicit false

namespace RootHelper
open Posix Control

def pathsIn : Nat → Str → List Str
  | 0, _ => []
  | turns+1, bs =>
    match nextString bs with
    | none => []
    | some path => if path = [] then [] else path :: pathsIn turns (bs.drop (2 + path.length))

/-- Both paths of a pair; without a first there is no second. -/
def pairIn (bs : Str) : List Str :=
  let len₀ := fromLittleEndian (bs.take 2)
  let len₁ := fromLittleEndian ((bs.drop 2).take 2)
  if bs.length < 4 then []
  else if len₀ = 0 then [[],[]]
  else if bs.length < 4 + len₀ + len₁ then []
  else [(bs.drop 4).take len₀,(bs.drop (4 + len₀)).take len₁]

namespace RemoteServer

/-- The paths that are read with the request `bs` begins with. An empty one stands for the home directory
where there is something to list. -/
def clientPaths (server : RemoteServer) : Str → List Str
  | [] => []
  | b :: bs =>
    let rq := request_type.ofByte b
    if rq.request = ACTION_LS then
      if rq.flags = 0 then
        (nextString bs).toList.map fun path => if path = [] then server.homePath else path
      else []
    else if rq.request = ACTION_CREATE then (nextString bs).toList
    else if rq.request = ACTION_LINK then pairIn bs
    else if rq.request = ACTION_STATS then
      if b0 rq.flags ∨ b1 rq.flags then (nextString bs).toList
      else if b2 rq.flags then pathsIn (bs.length+1) bs
      else []
    else if rq.request = ACTION_HASH then
      if (bs.headD 0).toNat < rh_hash_maxAlgoIndex then (nextString (bs.drop 2)).toList else []
    else []

/-- The servers differ in what is to be found at `path` and at what is spelled on from it, and in what a
creation does. -/
structure SameBut (path : Str) (server server' : RemoteServer) : Prop where
  sys : server'.sys = server.sys
  homePath : server'.homePath = server.homePath
  rhss_checkAccess : server'.rhss_checkAccess = server.rhss_checkAccess
  hashes : server'.hashes = server.hashes
  errno : server'.errno = server.errno
  username : server'.view.username = server.view.username
  elsewhere : ∀ s, ¬ path <+: s → server'.view.lstat s = server.view.lstat s ∧
    server'.view.stat s = server.view.stat s ∧ server'.view.opendir s = server.view.opendir s ∧
    server'.view.openRead s = server.view.openRead s ∧ server'.view.errno s = server.view.errno s

/-- A turn does not depend on what is to be found there, leaves the disk as it is and answers with an error,
if the connection lasts. -/
structure Refuses (server : RemoteServer) (path : Str) (w : Transfer) : Prop where
  blind : ∀ server', SameBut path server server' →
    tlsServerSessionTurn server' w = tlsServerSessionTurn server w
  answer : wp (tlsServerSessionTurn server) (fun _ w' => w'.disk = w.disk ∧ ∃ errno,
    w'.rcl.bytes = w.rcl.bytes ++ RESPONSE_ERROR :: littleEndian 4 errno) (fun _ w' => w'.disk = w.disk) w

def Mediates (server : RemoteServer) (w : Transfer) : Prop :=
  ∀ path ∈ server.clientPaths w.rcl.inp, server.rhss_checkAccess path = true → server.Refuses path w

/-- The handlers that do not ask are given nothing that is denied. -/
def Spared (server : RemoteServer) (bs : Str) : Prop :=
  ∀ b ∈ bs.head?, let rq := request_type.ofByte b
    rq.request = ACTION_HASH ∨ rq.request = ACTION_LINK ∨
        rq.request = ACTION_STATS ∧ ¬ (b0 rq.flags ∨ b1 rq.flags) →
      ∀ path ∈ server.clientPaths bs, server.rhss_checkAccess path = false

end RemoteServer

section Refusals

variable {server : RemoteServer} {w : Transfer}

/-- Only what has been read has gone from the connection. -/
def Heard (w w' : Transfer) : Prop := w'.disk = w.disk ∧ w'.rcl.out = w.rcl.out

instance : Std.Refl Heard := ⟨fun _ => ⟨rfl,rfl⟩⟩

instance : IsTrans Transfer Heard := ⟨fun _ _ _ h h' => ⟨h'.1.trans h.1,h'.2.trans h.2⟩⟩

theorem heard_read (count : Nat) : Moves Heard (networkDesc.readAllOrExit count) := by
  have read : Moves (fun k k' : Conn => k'.out = k.out) (readAllOrExit count) := by
    intro k
    simp only [Leaves,readAllOrExit,wp_bind,wp_get,wp_ite,wp_pure,wp_set,wp_throw]
    exact ⟨fun _ => trivial,fun _ => ⟨fun _ => trivial,fun _ => trivial⟩⟩
  exact read.run fun _ _ h => ⟨rfl,h⟩

theorem heard_byte : Moves Heard networkDesc.readU8 := (heard_read 1).bind fun _ => moves_pure _

theorem heard_string : Moves Heard networkDesc.readStringWithLen :=
  (heard_read 2).map.bind fun _ => Moves.ite (moves_pure _) (heard_read _)

def refuse : TransferM Unit := networkDesc.sendBaseResponse (-1) EPERM

theorem wp_networkWrite {c : Chunk} (hc : c.encode ≠ []) {Q : Unit → Transfer → Prop}
    (hQ : ∀ w', w'.disk = w.disk → w'.rcl.bytes = w.rcl.bytes ++ c.encode → Q () w') :
    wp (networkDesc.writeAllOrExit c) Q (fun _ w' => w'.disk = w.disk) w := by
  change wp (Transfer.rclPart.run (writeAllOrExit c)) Q _ w
  rw [wp_run,wp_writeAllOrExit_iff hc]
  refine ⟨fun _ => hQ _ rfl ?_,fun _ => rfl⟩
  simp [Conn.bytes,Conn.sent,Transfer.rclPart]

theorem wp_refuse : wp refuse (fun _ w' => w'.disk = w.disk ∧
    w'.rcl.bytes = w.rcl.bytes ++ RESPONSE_ERROR :: littleEndian 4 EPERM)
    (fun _ w' => w'.disk = w.disk) w := by
  rw [refuse,Sink.sendBaseResponse,if_neg (by decide),wp_bind]
  refine wp_networkWrite (by decide) fun w₁ hdisk₁ hbytes₁ => ?_
  refine wp_mono (wp_networkWrite (by decide) fun w₂ hdisk₂ hbytes₂ => ?_) (fun _ _ h => h)
    fun _ _ h => h.trans hdisk₁
  refine ⟨hdisk₂.trans hdisk₁,?_⟩
  rw [hbytes₂,hbytes₁,List.append_assoc]
  rfl

/-- What a refusal leaves, seen from where its request began. -/
def Answered (w₀ w : Transfer) (x : TransferM Unit) : Prop :=
  wp x (fun _ w' => w'.disk = w₀.disk ∧ ∃ errno,
    w'.rcl.bytes = w₀.rcl.bytes ++ RESPONSE_ERROR :: littleEndian 4 errno)
    (fun _ w' => w'.disk = w₀.disk) w

theorem answered_refuse {w₀ : Transfer} (h : Heard w₀ w) : Answered w₀ w refuse := by
  refine wp_mono wp_refuse (fun _ w' h' => ?_) fun _ _ h' => h'.trans h.1
  have hbytes : w.rcl.bytes = w₀.rcl.bytes := congrArg (List.flatMap Chunk.encode) h.2
  exact ⟨h'.1.trans h.1,EPERM,hbytes ▸ h'.2⟩

theorem answered_after {α : Type} {w₀ : Transfer} {x : TransferM α} {f : α → TransferM Unit}
    (h : Heard w₀ w) (hx : Moves Heard x) (hf : ∀ a w', Heard w₀ w' → Answered w₀ w' (f a)) :
    Answered w₀ w (x >>= f) := by
  rw [Answered,wp_bind]
  exact wp_mono (hx w) (fun a w' h' => hf a w' (trans_of Heard h h')) fun _ _ h' => h'.1.trans h.1

theorem byte_alike {b : Byte} {bs : Str} {f g : Byte → TransferM Unit} (hinp : w.rcl.inp = b :: bs)
    (h : ∀ w', w'.rcl.inp = bs → f b w' = g b w') :
    (networkDesc.readU8 >>= f) w = (networkDesc.readU8 >>= g) w := by
  refine bind_alike ?_
  unfold Source.readU8
  rw [wp_bind]
  refine wp_networkRead (fun _ => ?_) fun _ _ => trivial
  rw [wp_pure,hinp]
  exact h _ rfl

theorem string_alike {path : Str} {f g : Str → TransferM Unit}
    (hpath : path ∈ nextString w.rcl.inp) (h : ∀ w', f path w' = g path w') :
    (networkDesc.readStringWithLen >>= f) w = (networkDesc.readStringWithLen >>= g) w := by
  refine bind_alike (wp_networkString (fun s hs => ?_) fun _ _ => trivial)
  obtain rfl := Option.some.inj (hs.symm.trans hpath)
  exact h _

theorem run_readStringWithLen {ε σ τ : Type} {L : Lens σ τ} {src : Source ε τ} :
    L.run src.readStringWithLen = (src.over L).readStringWithLen := by
  unfold Source.readStringWithLen Source.readU16
  rw [Lens.run_bind,Lens.run_map]
  refine congrArg _ (funext fun len => ?_)
  split
  · exact Lens.run_pure _
  · rfl

theorem run_create {creation : CreateOutcome} {rhss_checkAccess : Str → Bool} {flags : Nat} :
    Transfer.rclPart.run (createFileOrDirectory creation rhss_checkAccess flags) = (do
      let filepath ← networkDesc.readStringWithLen
      let mode ← networkDesc.readU32
      Transfer.rclPart.run (do
        let request ← creation_request connDesc.toSource (rhss_checkAccess filepath) flags
        creation_response creation filepath mode request)) := by
  rw [createFileOrDirectory,Lens.run_bind,run_readStringWithLen]
  refine congrArg _ (funext fun filepath => ?_)
  rw [Lens.run_bind,Source.readU32,Lens.run_map]
  rfl

/-- What a denied request does after its first byte. -/
def refusal (create : Bool) : TransferM Unit := do
  let _ ← networkDesc.readStringWithLen
  if create then do
    let _ ← networkDesc.readU32
    refuse
  else refuse

theorem answered_refusal {create : Bool} {w₀ : Transfer} (h : Heard w₀ w) :
    Answered w₀ w (refusal create) := by
  refine answered_after h heard_string fun _ w₁ h₁ => ?_
  cases create with
  | false => exact answered_refuse h₁
  | true => exact answered_after h₁ (heard_read 4).map fun _ _ h₂ => answered_refuse h₂

theorem listing_denied {flags : Fin 8} {dirpath : Str} (hflags : flags = 0)
    (hpath : dirpath ∈ nextString w.rcl.inp)
    (hdenied : server.rhss_checkAccess (if dirpath = [] then server.homePath else dirpath) = true) :
    ls server flags w = refusal false w := by
  rw [ls,if_pos hflags]
  refine string_alike hpath fun w' => ?_
  rw [listDir,if_pos hdenied]
  rfl

theorem creation_denied {flags : Nat} {filepath : Str} (hpath : filepath ∈ nextString w.rcl.inp)
    (hdenied : server.rhss_checkAccess filepath = true) :
    Transfer.rclPart.run (createFileOrDirectory server.creation server.rhss_checkAccess flags) w =
      refusal true w := by
  rw [run_create]
  refine string_alike hpath fun w' => ?_
  rw [if_pos rfl]
  refine bind_alike (wp_trivial (fun mode w₁ => ?_) fun _ _ => trivial)
  have hdecide : ¬ (-1 : Int) = 0 := by decide
  rw [creation_request,if_pos hdenied,pure_bind,creation_response,sendBaseResponse,if_neg hdecide,
    Lens.run_bind,refuse,Sink.sendBaseResponse,if_neg hdecide]
  rfl

theorem stats_denied {flags : Nat} {path : Str} (hflags : b0 flags ∨ b1 flags)
    (hpath : path ∈ nextString w.rcl.inp) (hdenied : server.rhss_checkAccess path = true) :
    stats server flags w = refusal false w := by
  change (stats_request networkDesc.toSource (w.rcl.inp.length+1) flags >>= _) w = _
  rw [stats_request]
  by_cases hfile : b0 flags
  · rw [if_pos hfile,map_eq_pure_bind,bind_assoc]
    refine string_alike hpath fun w' => ?_
    rw [pure_bind]
    simp only [stats_file,if_pos hdenied]
    rfl
  · rw [if_neg hfile,if_pos (hflags.resolve_left hfile),map_eq_pure_bind,bind_assoc]
    refine string_alike hpath fun w' => ?_
    rw [pure_bind]
    simp only [stats_dir,if_pos hdenied]
    rfl

theorem serve_denied {rq : request_type} {b : Byte} {bs path : Str} (hinp : w.rcl.inp = bs)
    (hrq : request_type.ofByte b = rq) (hspared : server.Spared (b :: bs))
    (hpath : path ∈ server.clientPaths (b :: bs)) (hdenied : server.rhss_checkAccess path = true) :
    serve server rq w = refusal (rq.request = ACTION_CREATE) w := by
  have hasks := hspared b rfl
  rw [hrq] at hasks
  have hunasked : ¬ (rq.request = ACTION_HASH ∨ rq.request = ACTION_LINK ∨
      rq.request = ACTION_STATS ∧ ¬ (b0 rq.flags ∨ b1 rq.flags)) := fun hkind => by
    rw [hasks hkind path hpath] at hdenied
    cases hdenied
  rw [not_or,not_or,not_and_not_right] at hunasked
  obtain ⟨hhash,hlink,hstats⟩ := hunasked
  rw [RemoteServer.clientPaths,hrq] at hpath
  unfold serve
  by_cases hls : rq.request = ACTION_LS
  · rw [if_pos hls] at hpath ⊢
    split at hpath
    · rename_i hflags
      obtain ⟨dirpath,hdirpath,rfl⟩ := List.mem_map.mp hpath
      rw [listing_denied hflags (by rw [hinp]; exact Option.mem_toList.mp hdirpath) hdenied,hls]
      rfl
    · cases hpath
  · rw [if_neg hls] at hpath ⊢
    by_cases hcreate : rq.request = ACTION_CREATE
    · have hupload : ¬ rq.request.val = ACTION_UPLOAD.toNat := by rw [hcreate]; decide
      have hdownload : ¬ rq.request = ACTION_DOWNLOAD := by rw [hcreate]; decide
      rw [if_pos hcreate] at hpath
      rw [if_neg hdownload,if_neg hupload,if_pos hcreate,decide_eq_true hcreate]
      exact creation_denied (by rw [hinp]; exact Option.mem_toList.mp hpath) hdenied
    · rw [if_neg hcreate,if_neg hlink] at hpath
      rw [decide_eq_false hcreate]
      by_cases hstat : rq.request = ACTION_STATS
      · have hupload : ¬ rq.request.val = ACTION_UPLOAD.toNat := by rw [hstat]; decide
        have hdownload : ¬ rq.request = ACTION_DOWNLOAD := by rw [hstat]; decide
        have hflags := hstats hstat
        rw [if_pos hstat,if_pos hflags] at hpath
        rw [if_neg hdownload,if_neg hupload,if_neg hcreate,if_neg hlink,if_pos hstat]
        exact stats_denied hflags (by rw [hinp]; exact Option.mem_toList.mp hpath) hdenied
      · rw [if_neg hstat,if_neg hhash] at hpath
        cases hpath

theorem turn_denied {b : Byte} {bs path : Str} (hinp : w.rcl.inp = b :: bs)
    (hspared : server.Spared (b :: bs)) (hpath : path ∈ server.clientPaths (b :: bs))
    (hdenied : server.rhss_checkAccess path = true) :
    tlsServerSessionTurn server w = (do
      let b ← networkDesc.readU8
      refusal ((request_type.ofByte b).request = ACTION_CREATE)) w := by
  rw [tlsServerSessionTurn,map_eq_pure_bind,bind_assoc]
  refine byte_alike hinp fun w' hinp' => ?_
  rw [pure_bind]
  exact serve_denied hinp' rfl hspared hpath hdenied

theorem refuses_denied {path : Str} (hspared : server.Spared w.rcl.inp)
    (hpath : path ∈ server.clientPaths w.rcl.inp) (hdenied : server.rhss_checkAccess path = true) :
    server.Refuses path w := by
  cases hinp : w.rcl.inp with
  | nil =>
    rw [hinp] at hpath
    cases hpath
  | cons b bs =>
    rw [hinp] at hspared hpath
    have hturn := turn_denied hinp hspared hpath hdenied
    refine ⟨fun server' hsame => ?_,?_⟩
    · -- the same bytes name the same paths to a server that is set alike
      have hpaths : server'.clientPaths (b :: bs) = server.clientPaths (b :: bs) := by
        simp only [RemoteServer.clientPaths,hsame.homePath]
      have hspared' : server'.Spared (b :: bs) := by
        unfold RemoteServer.Spared
        rw [hpaths,hsame.rhss_checkAccess]
        exact hspared
      rw [hturn]
      exact turn_denied hinp hspared' (hpaths ▸ hpath) (hsame.rhss_checkAccess ▸ hdenied)
    · have hanswer : Answered w w (do
          let b ← networkDesc.readU8
          refusal ((request_type.ofByte b).request = ACTION_CREATE)) :=
        answered_after (refl_of Heard w) heard_byte fun _ _ h => answered_refusal h
      unfold Answered wp at hanswer
      unfold wp
      rwa [hturn]

end Refusals

/-- In a session in which the handlers that do not ask are given nothing that is denied, all that is denied
is refused. -/
theorem session_mediates {servers : List RemoteServer} {w : Transfer}
    (hspared : ∀ n t server, inTurn tlsServerSessionTurn (servers.take n) w = .ok () t →
      servers[n]? = some server → server.Spared t.rcl.inp) (n : Nat) (t : Transfer)
    (server : RemoteServer) (hrun : inTurn tlsServerSessionTurn (servers.take n) w = .ok () t)
    (hserver : servers[n]? = some server) : server.Mediates t := fun _ hpath hdenied =>
  refuses_denied (hspared n t server hrun hserver) hpath hdenied

theorem session_mediates_stats :
    (guarded fun _ => true).Mediates (sessionOf [.stats 1 [47,120]]) := by
  refine @session_mediates [guarded fun _ => true] (sessionOf [.stats 1 [47,120]])
    (fun n t server hrun hserver => ?_) 0 _ _ rfl rfl
  cases n with
  | zero =>
    cases hrun
    cases hserver
    intro b hb rq hkind
    obtain rfl := Option.some.inj hb
    exact absurd hkind (by decide)
  | succ n => cases hserver

theorem unmediated {server : RemoteServer} {w : Transfer} {path : Str}
    (hpath : path ∈ server.clientPaths w.rcl.inp) (hdenied : server.rhss_checkAccess path = true)
    (hrun : wp (tlsServerSessionTurn server) (fun _ w' => w'.rcl.bytes = w.rcl.bytes ++ RESPONSE_OK ::
      w'.rcl.bytes.drop (w.rcl.bytes.length + 1)) (fun _ _ => False) w) : ¬ server.Mediates w := by
  intro h
  have hanswer := (h path hpath hdenied).answer
  obtain ⟨_,t,ht,hok⟩ := ok_of_wp hrun
  rw [wp_of_ok ht] at hanswer
  obtain ⟨_,errno,herror⟩ := hanswer
  rw [hok] at herror
  have hhead := List.append_cancel_left herror
  injection hhead with hcode _
  exact absurd hcode (by decide)

/-- All is denied; the file "/x" is hashed, a link to it is made at "/l", and it is counted. -/
theorem unasked_handlers :
    ¬ (guarded fun _ => true).Mediates (sessionOf [.hash 0 2 0 [47,120]]) ∧
      ¬ (guarded fun _ => true).Mediates (sessionOf [.link 0 ([47,120],[47,108])]) ∧
      ¬ (guarded fun _ => true).Mediates (sessionOf [.statsMultiple [[47,120]]]) := by
  have hpath : ∀ r ∈ [RemoteRequest.hash 0 2 0 [47,120],.link 0 ([47,120],[47,108]),
      .statsMultiple [[47,120]]],
      [47,120] ∈ (guarded fun _ => true).clientPaths (sessionOf [r]).rcl.inp := by
    decide +kernel
  refine ⟨unmediated (hpath _ (by simp)) rfl ?_,unmediated (hpath _ (by simp)) rfl ?_,
    unmediated (hpath _ (by simp)) rfl ?_⟩
  · decide +kernel
  · decide +kernel
  · decide +kernel

end RootHelper
