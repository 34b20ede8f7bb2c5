import Mathlib.Logic.Function.Basic
import RootHelper.FileStreams

/-!
The requests of a local client that look at single files or change what is kept of them: dates, owners and
permissions, whether something is there, signals to a process. They are served one after the other, and what
a path leads to depends on the permissions that are set then.
-/

set_option autoImplicit false

namespace RootHelper
open Posix Control

def ACTION_EXISTS : Fin 32 := 0x08
def ACTION_KILL : Fin 32 := 0x0C
def ACTION_GETPID : Fin 32 := 0x0D
def ACTION_SETATTRIBUTES : Fin 32 := 0x15

structure timespec where
  tv_sec : Int
  tv_nsec : Nat
  deriving DecidableEq, Repr

inductive FileType where
  | regular | directory | special
  deriving DecidableEq, Repr

structure Attributes where
  fileType : FileType
  mode : Nat
  uid : Nat
  gid : Nat
  atime : timespec
  mtime : timespec
  deriving DecidableEq, Repr

inductive KillOutcome where
  | refused (e : Errno)
  | sent
  /-- The helper itself. -/
  | ends
  deriving DecidableEq, Repr

/-- What the process is given. A call that changes something may be refused, and with a change of owners or
permissions the bits above the nine may be cleared. -/
structure AttributeSystem (ι : Type) where
  /-- The file a path leads to, through links. -/
  follow : (ι → Attributes) → Str → Except Errno ι
  refuse : Nat → Option Errno
  chownedMode : Attributes → Nat
  chowned_bits : ∀ st, chownedMode st % 512 = st.mode % 512
  chmoddedMode : Attributes → Nat → Nat
  chmodded_bits : ∀ st perms, chmoddedMode st perms % 512 = perms % 512
  kill : Nat → Nat → Nat → KillOutcome
  pid : Nat
  /-- What is found in a `struct stat` that nothing was written to. -/
  uninitialized : Nat → FileType

structure Machine (ι : Type) where
  inodes : ι → Attributes
  calls : Nat
  signalled : List (Nat × Nat)

/-- The number that stands for an owner that is not to be changed. -/
def unchanged : Nat := 2^32 - 1

namespace Machine

variable {ι : Type} [DecidableEq ι] (sys : AttributeSystem ι) (m : Machine ι)

def called : Machine ι := { m with calls := m.calls+1 }

def stat (filepath : Str) : Except Errno Attributes × Machine ι :=
  ((sys.follow m.inodes filepath).map m.inodes,m.called)

def change (filepath : Str) (f : Attributes → Attributes) : Except Errno Unit × Machine ι :=
  match sys.follow m.inodes filepath with
  | .error e => (.error e,m.called)
  | .ok i =>
    match sys.refuse m.calls with
    | some e => (.error e,m.called)
    | none => (.ok (),{ m.called with inodes := Function.update m.inodes i (f (m.inodes i)) })

def utimes (filepath : Str) (atime mtime : Int) : Except Errno Unit × Machine ι :=
  m.change sys filepath fun st => { st with atime := ⟨atime,0⟩, mtime := ⟨mtime,0⟩ }

def chown (filepath : Str) (owner group : Nat) : Except Errno Unit × Machine ι :=
  m.change sys filepath fun st => { st with
    uid := if owner = unchanged then st.uid else owner
    gid := if group = unchanged then st.gid else group
    mode := sys.chownedMode st }

def chmod (filepath : Str) (perms : Nat) : Except Errno Unit × Machine ι :=
  m.change sys filepath fun st => { st with mode := sys.chmoddedMode st perms }

end Machine

structure LocalServer (σ ι : Type) where
  client : σ
  machine : Machine ι

def LocalServer.clientPart {σ ι : Type} : Lens (LocalServer σ ι) σ where
  get s := s.client
  set s k := { s with client := k }
  get_set _ _ := rfl
  set_get _ := rfl
  set_set _ _ _ := rfl

section Model

variable {σ ι : Type} [DecidableEq ι] (sys : AttributeSystem ι) (cl : Descriptor Stop σ)

def call {α : Type} (f : Machine ι → α × Machine ι) : EStateM Stop (LocalServer σ ι) α := do
  let s ← get
  let (ret,machine) := f s.machine
  set { s with machine := machine }
  pure ret

def inOutDesc : Desc Stop (LocalServer σ ι) := cl.desc.over LocalServer.clientPart

def respond (ret : Except Errno Unit) : EStateM Stop (LocalServer σ ι) Unit :=
  match ret with
  | .ok _ => (inOutDesc cl).sendBaseResponse 0 0
  | .error e => (inOutDesc cl).sendBaseResponse (-1) e.code

def readIf (flag : Bool) (instead : Nat) : EStateM Stop (LocalServer σ ι) Nat :=
  if flag then (inOutDesc cl).readU32 else pure instead

def setDates (filepath : Str) (flags : Nat) : EStateM Stop (LocalServer σ ι) Unit := do
  let access ← readIf cl (b0 flags) 0
  let modification ← readIf cl (b1 flags) 0
  match ← call fun m => m.stat sys filepath with
  | .error e => respond cl (.error e)
  | .ok st => do
    let ret ← call fun m => m.utimes sys filepath (if b0 flags then access else st.atime.tv_sec)
      (if b1 flags then modification else st.mtime.tv_sec)
    respond cl ret

def setOwnership (filepath : Str) (flags : Nat) : EStateM Stop (LocalServer σ ι) Unit := do
  let owner ← readIf cl (b0 flags) unchanged
  let group ← readIf cl (b1 flags) unchanged
  match ← call fun m => m.stat sys filepath with
  | .error e => respond cl (.error e)
  | .ok st => do
    let ret ← call fun m => m.chown sys filepath (if b0 flags then owner else st.uid)
      (if b1 flags then group else st.gid)
    respond cl ret

def setPermissions (filepath : Str) : EStateM Stop (LocalServer σ ι) Unit := do
  let perms ← (inOutDesc cl).readU32
  let ret ← call fun m => m.chmod sys filepath perms
  respond cl ret

/-- The flags of the request are not looked at. -/
def setAttributes : EStateM Stop (LocalServer σ ι) Unit := do
  let b ← (inOutDesc cl).readU8
  let filepath ← (inOutDesc cl).readStringWithLen
  match b.toNat / 64 with
  | 0 => setDates sys cl filepath (b.toNat % 4)
  | 1 => setOwnership sys cl filepath (b.toNat % 4)
  | 2 => setPermissions sys cl filepath
  | _ => throw .threadExit

/-- The bits for a file and a directory, as far as they are asked for. -/
def typeBits (flags : Nat) (fileType : FileType) : Nat :=
  (if b1 flags ∧ fileType = .regular then 2 else 0) + if b2 flags ∧ fileType = .directory then 4 else 0

/-- `access` without a mode succeeds where `stat` does. When `stat` fails, what it should have written is
looked at nevertheless. -/
def existsIsFileIsDir (flags : Nat) : EStateM Stop (LocalServer σ ι) Unit := do
  let filepath ← (inOutDesc cl).readStringWithLen
  let access ← (if b0 flags then call fun m => m.stat sys filepath else pure (.error .ENOENT))
  let respFlags ← (do
    if b0 flags ∧ access.toOption = none then pure 0
    else do
      let s ← get
      let st ← call fun m => m.stat sys filepath
      let fileType := match st with
        | .ok st => st.fileType
        | .error _ => sys.uninitialized s.machine.calls
      pure ((if b0 flags then 1 else 0) + typeBits flags fileType))
  (inOutDesc cl).sendBaseResponse 0 0
  (inOutDesc cl).writeAllOrExit (.u8 (.ofNat respFlags))

def killProcess : EStateM Stop (LocalServer σ ι) Unit := do
  let pid ← (inOutDesc cl).readU32
  let sig ← (inOutDesc cl).readU32
  let s ← get
  match sys.kill s.machine.calls pid sig with
  | .refused e => do
    call fun m => ((),m.called)
    respond cl (.error e)
  | .sent => do
    call fun m => ((),{ m.called with signalled := m.signalled ++ [(pid,sig)] })
    respond cl (.ok ())
  | .ends => throw .crash

def getThisPid : EStateM Stop (LocalServer σ ι) Unit :=
  (inOutDesc cl).writeAllOrExit (.u32 sys.pid)

/-- One turn of the loop of `clientSession` and the switch of `serveRequest`, for these requests. -/
def serveAttributes : EStateM Stop (LocalServer σ ι) Unit := do
  let rq ← request_type.ofByte <$> (inOutDesc cl).readU8
  if rq.request = ACTION_EXISTS then existsIsFileIsDir sys cl rq.flags
  else if rq.request = ACTION_KILL then killProcess sys cl
  else if rq.request = ACTION_GETPID then getThisPid sys cl
  else if rq.request = ACTION_SETATTRIBUTES then setAttributes sys cl
  else throw .diverged

end Model

/-- The bits of a request that are not looked at are spare. -/
inductive AttributeRequest where
  | dates (flags : Fin 8) (spare : Fin 16) (filepath : Str) (access modification : Option Nat)
  | ownership (flags : Fin 8) (spare : Fin 16) (filepath : Str) (owner group : Option Nat)
  | permissions (flags : Fin 8) (spare : Fin 64) (filepath : Str) (perms : Nat)
  | check (flags : Fin 8) (filepath : Str)
  | kill (flags : Fin 8) (pid sig : Nat)
  | getPid (flags : Fin 8)
  deriving DecidableEq, Repr

namespace AttributeRequest

def given (x : Option Nat) : Str := x.elim [] (littleEndian 4)

def presence (x y : Option Nat) : Nat := (if x.isSome then 1 else 0) + if y.isSome then 2 else 0

def rq : AttributeRequest → request_type
  | dates flags _ _ _ _ | ownership flags _ _ _ _ | permissions flags _ _ _ => ⟨ACTION_SETATTRIBUTES,flags⟩
  | check flags _ => ⟨ACTION_EXISTS,flags⟩
  | kill flags _ _ => ⟨ACTION_KILL,flags⟩
  | getPid flags => ⟨ACTION_GETPID,flags⟩

def body : AttributeRequest → Str
  | dates _ spare filepath access modification =>
    [.ofNat (4*spare + presence access modification)] ++ (stringBytes filepath ++
      (given access ++ given modification))
  | ownership _ spare filepath owner group =>
    [.ofNat (64 + 4*spare + presence owner group)] ++ (stringBytes filepath ++ (given owner ++ given group))
  | permissions _ spare filepath perms =>
    [.ofNat (128 + spare)] ++ (stringBytes filepath ++ littleEndian 4 perms)
  | check _ filepath => stringBytes filepath
  | kill _ pid sig => littleEndian 4 pid ++ littleEndian 4 sig
  | getPid _ => []

def bytes (r : AttributeRequest) : Str := [r.rq.byte] ++ r.body

/-- The sizes of the formats; the helper is not to end itself. -/
def Fits {ι : Type} (sys : AttributeSystem ι) : AttributeRequest → Prop
  | dates _ _ filepath x y | ownership _ _ filepath x y =>
    filepath.length < 65536 ∧ (∀ n ∈ x, n < 2^32) ∧ ∀ n ∈ y, n < 2^32
  | permissions _ _ filepath perms => filepath.length < 65536 ∧ perms < 2^32
  | check _ filepath => filepath.length < 65536
  | kill _ pid sig => pid < 2^32 ∧ sig < 2^32 ∧ ∀ calls, sys.kill calls pid sig ≠ .ends
  | getPid _ => True

end AttributeRequest

/-- The answer of one byte, or with an error number. -/
def response : Except Errno Unit → Str
  | .ok _ => [RESPONSE_OK]
  | .error e => RESPONSE_ERROR :: littleEndian 4 e.code

section Performing

variable {ι : Type} [DecidableEq ι] (sys : AttributeSystem ι)

/-- A change of what a path leads to, when there is something. -/
def Machine.edit (m : Machine ι) (filepath : Str) (f : Attributes → Attributes) : Machine ι × Str :=
  match sys.follow m.inodes filepath with
  | .error e => (m.called,response (.error e))
  | .ok _ =>
    let (ret,m) := m.called.change sys filepath f
    (m,response ret)

/-- Of a file that is not there, nothing is told when it is asked whether it is there. -/
def Machine.check (m : Machine ι) (flags : Nat) (filepath : Str) : Machine ι × Str :=
  match sys.follow m.inodes filepath with
  | .ok i => (if b0 flags then m.called.called else m.called,
      [RESPONSE_OK,.ofNat ((if b0 flags then 1 else 0) + typeBits flags (m.inodes i).fileType)])
  | .error _ => (m.called,
      [RESPONSE_OK,.ofNat (if b0 flags then 0 else typeBits flags (sys.uninitialized m.calls))])

def Machine.signal (m : Machine ι) (pid sig : Nat) : Machine ι × Str :=
  match sys.kill m.calls pid sig with
  | .refused e => (m.called,response (.error e))
  | _ => ({ m.called with signalled := m.signalled ++ [(pid,sig)] },response (.ok ()))

/-- What a request does and how it is answered: the dates that are not asked for are kept without the part
of a second, the owners as they are. -/
def AttributeRequest.perform : AttributeRequest → Machine ι → Machine ι × Str
  | dates _ _ filepath access modification, m =>
    m.edit sys filepath fun st => { st with
      atime := ⟨(access.map Int.ofNat).getD st.atime.tv_sec,0⟩
      mtime := ⟨(modification.map Int.ofNat).getD st.mtime.tv_sec,0⟩ }
  | ownership _ _ filepath owner group, m =>
    m.edit sys filepath fun st => { st with
      uid := (owner.filter (· ≠ unchanged)).getD st.uid
      gid := (group.filter (· ≠ unchanged)).getD st.gid
      mode := sys.chownedMode st }
  | permissions _ _ filepath perms, m =>
    let (ret,m) := m.chmod sys filepath perms
    (m,response ret)
  | check flags filepath, m => m.check sys flags filepath
  | kill _ pid sig, m => m.signal sys pid sig
  | getPid _, m => (m,littleEndian 4 sys.pid)

end Performing

section Attending

variable {σ ι : Type} {sys : AttributeSystem ι} {cl : Descriptor Stop σ}
  {on : σ → Str → Str → Prop} {shut : σ → Str → Prop} {m : Machine ι} {inp out : Str}

def Attending (on : σ → Str → Str → Prop) (s : LocalServer σ ι) (m : Machine ι) (inp out : Str) : Prop :=
  on s.client inp out ∧ s.machine = m

@[simp] theorem wp_call {α : Type} {f : Machine ι → α × Machine ι} {Q : α → LocalServer σ ι → Prop}
    {E : Stop → LocalServer σ ι → Prop} {s : LocalServer σ ι} :
    wp (call f) Q E s ↔ Q (f s.machine).1 { s with machine := (f s.machine).2 } := Iff.rfl

theorem Streams.serving_reads (hcl : Streams cl on shut) :
    (@inOutDesc σ ι cl).toSource.ReadsSome fun s inp => Attending on s m inp out := by
  intro bs hbs s rest h
  change wp (LocalServer.clientPart.run (cl.desc.readAllOrExit bs.length)) _ _ s
  rw [wp_run]
  exact wp_mono ((hcl.reads out).readsSome bs hbs s.client rest h.1) (fun _ _ ht => ⟨ht.1,ht.2,h.2⟩)
    fun _ _ h => h

theorem Streams.serving_writes (hcl : Streams cl on shut) {c : Chunk} (hc : c.encode ≠ []) :
    Prints (fun s out => Attending on s m inp out) ((@inOutDesc σ ι cl).writeAllOrExit c) c.encode := by
  intro s cs h
  change wp (LocalServer.clientPart.run (cl.desc.writeAllOrExit c)) _ _ s
  rw [wp_run]
  exact wp_mono ((hcl.writes inp).writes hc s.client cs h.1) (fun _ _ ht => ⟨ht,h.2⟩) fun _ _ h => h

theorem Streams.prints_respond (hcl : Streams cl on shut) (ret : Except Errno Unit) :
    Prints (fun s out => Attending on s m inp out) (@respond σ ι cl ret) (response ret) := by
  cases ret with
  | ok _ => exact hcl.serving_writes (c := .u8 RESPONSE_OK) (by decide)
  | error e =>
    exact (hcl.serving_writes (c := .u8 RESPONSE_ERROR) (by decide)).bind fun _ =>
      hcl.serving_writes (c := .u32 e.code) (by simp [Chunk.encode,littleEndian])

theorem Streams.parses_given (hcl : Streams cl on shut) {x : Option Nat} (hx : ∀ n ∈ x, n < 2^32)
    {flag : Bool} (hflag : flag = x.isSome) (instead : Nat) :
    Parses (fun s inp => Attending on s m inp out)
      (@readIf σ ι cl flag instead) (AttributeRequest.given x) (x.getD instead) := by
  subst hflag
  unfold readIf
  cases x with
  | none => exact parses_pure instead
  | some n => exact parses_u32 hcl.serving_reads (hx n rfl)

/-! ### Each request -/

section Requests

theorem Streams.wp_answer (hcl : Streams cl on shut) {s : LocalServer σ ι} {f : Machine ι →
    Except Errno Unit × Machine ι} (h : Attending on s m inp out) :
    wp (do let ret ← call f; respond cl ret)
      (fun _ t => Attending on t (f m).2 inp (out ++ response (f m).1)) (fun _ _ => False) s := by
  obtain ⟨hon,rfl⟩ := h
  rw [wp_bind,wp_call]
  exact hcl.prints_respond _ _ out ⟨hon,rfl⟩

open AttributeRequest

variable [DecidableEq ι]

theorem Streams.wp_edit (hcl : Streams cl on shut) {s : LocalServer σ ι} {filepath : Str}
    {f : Attributes → Machine ι → Except Errno Unit × Machine ι} {g : Attributes → Attributes}
    (hf : ∀ i, sys.follow m.inodes filepath = .ok i →
      f (m.inodes i) m.called = m.called.change sys filepath g)
    (h : Attending on s m inp out) :
    wp (do
        match ← call fun m => m.stat sys filepath with
        | .error e => respond cl (.error e)
        | .ok st => do
          let ret ← call (f st)
          respond cl ret)
      (fun _ t => Attending on t (m.edit sys filepath g).1 inp (out ++ (m.edit sys filepath g).2))
      (fun _ _ => False) s := by
  obtain ⟨hon,rfl⟩ := h
  rw [wp_bind,wp_call]
  unfold Machine.stat Machine.edit
  cases hfollow : sys.follow s.machine.inodes filepath with
  | error e => exact hcl.prints_respond _ _ out ⟨hon,rfl⟩
  | ok i =>
    have hans := hcl.wp_answer (f := f (s.machine.inodes i))
      (s := { s with machine := s.machine.called }) ⟨hon,rfl⟩
    rw [hf i hfollow] at hans
    exact hans

omit [DecidableEq ι] in
theorem presence_lt (x y : Option Nat) : presence x y < 4 := by
  unfold presence
  split <;> split <;> omega

omit [DecidableEq ι] in
theorem presence_bits (x y : Option Nat) (n : Nat) : b0 ((4*n + presence x y) % 4) = x.isSome ∧
    b1 ((4*n + presence x y) % 4) = y.isSome := by
  rw [Nat.mul_add_mod,Nat.mod_eq_of_lt (presence_lt x y)]
  cases x <;> cases y <;> simp only [presence,b0,b1,Option.isSome] <;> decide

theorem change_congr {filepath : Str} {f g : Attributes → Attributes}
    (h : ∀ i, sys.follow m.inodes filepath = .ok i → f (m.inodes i) = g (m.inodes i)) :
    m.change sys filepath f = m.change sys filepath g := by
  unfold Machine.change
  cases hfollow : sys.follow m.inodes filepath with
  | error e => rfl
  | ok i => simp only [h i hfollow]

theorem Streams.performs_dates (hcl : Streams cl on shut) {flags : Fin 8} {spare : Fin 16} {filepath : Str}
    {access modification : Option Nat}
    (hfits : (AttributeRequest.dates flags spare filepath access modification).Fits sys)
    {s : LocalServer σ ι} {rest : Str}
    (h : Attending on s m ((AttributeRequest.dates flags spare filepath access modification).body ++ rest) out) :
    wp (setAttributes sys cl) (fun _ t => Attending on t
      ((AttributeRequest.dates flags spare filepath access modification).perform sys m).1 rest
      (out ++ ((AttributeRequest.dates flags spare filepath access modification).perform sys m).2))
      (fun _ _ => False) s := by
  obtain ⟨hlen,hx,hy⟩ := hfits
  obtain ⟨hbit₀,hbit₁⟩ := presence_bits access modification spare
  have hlt : 4*spare.val + presence access modification < 64 := by
    have hspare := spare.isLt
    have hpresence := presence_lt access modification
    omega
  have hb : (UInt8.ofNat (4*spare + presence access modification)).toNat =
      4*spare + presence access modification := by
    rw [UInt8.toNat_ofNat',Nat.mod_eq_of_lt (by omega)]
  rw [body,List.append_assoc,List.append_assoc,List.append_assoc] at h
  refine (parses_u8 hcl.serving_reads _).before h fun t ht => ?_
  refine (parses_string hcl.serving_reads hlen).before ht fun u hu => ?_
  rw [hb,Nat.div_eq_of_lt hlt]
  change wp (setDates sys cl filepath _) _ _ u
  rw [setDates]
  refine (hcl.parses_given hx hbit₀ 0).before hu fun v hv => ?_
  refine (hcl.parses_given hy hbit₁ 0).before hv fun w hw => ?_
  refine hcl.wp_edit (fun i hi => ?_) hw
  refine change_congr fun j hj => ?_
  obtain rfl := Except.ok.inj (hi.symm.trans hj)
  rw [hbit₀,hbit₁]
  cases access <;> cases modification <;> rfl

omit [DecidableEq ι] in
theorem owner_given (x : Option Nat) (n : Nat) :
    (if (if x.isSome then x.getD unchanged else n) = unchanged then n
      else if x.isSome then x.getD unchanged else n) = (x.filter (· ≠ unchanged)).getD n := by
  cases x with
  | none => simp
  | some k => by_cases hk : k = unchanged <;> simp [hk,Option.filter_some]

theorem Streams.performs_ownership (hcl : Streams cl on shut) {flags : Fin 8} {spare : Fin 16}
    {filepath : Str} {owner group : Option Nat}
    (hfits : (AttributeRequest.ownership flags spare filepath owner group).Fits sys)
    {s : LocalServer σ ι} {rest : Str}
    (h : Attending on s m ((AttributeRequest.ownership flags spare filepath owner group).body ++ rest) out) :
    wp (setAttributes sys cl) (fun _ t => Attending on t
      ((AttributeRequest.ownership flags spare filepath owner group).perform sys m).1 rest
      (out ++ ((AttributeRequest.ownership flags spare filepath owner group).perform sys m).2))
      (fun _ _ => False) s := by
  obtain ⟨hlen,hx,hy⟩ := hfits
  obtain ⟨hbit₀,hbit₁⟩ := presence_bits owner group (16 + spare)
  have hlt := presence_lt owner group
  have hspare := spare.isLt
  have hb : (UInt8.ofNat (64 + 4*spare + presence owner group)).toNat =
      4*(16 + spare) + presence owner group := by
    rw [UInt8.toNat_ofNat',Nat.mod_eq_of_lt (by omega)]
    omega
  have hsub : (4*(16 + spare.val) + presence owner group) / 64 = 1 := by omega
  rw [body,List.append_assoc,List.append_assoc,List.append_assoc] at h
  refine (parses_u8 hcl.serving_reads _).before h fun t ht => ?_
  refine (parses_string hcl.serving_reads hlen).before ht fun u hu => ?_
  rw [hb,hsub]
  change wp (setOwnership sys cl filepath _) _ _ u
  rw [setOwnership]
  refine (hcl.parses_given hx hbit₀ unchanged).before hu fun v hv => ?_
  refine (hcl.parses_given hy hbit₁ unchanged).before hv fun w hw => ?_
  refine hcl.wp_edit (fun i hi => ?_) hw
  refine change_congr fun j hj => ?_
  obtain rfl := Except.ok.inj (hi.symm.trans hj)
  rw [hbit₀,hbit₁]
  exact congrArg₂ (fun uid gid => Attributes.mk _ _ uid gid _ _) (owner_given _ _) (owner_given _ _)

theorem Streams.performs_permissions (hcl : Streams cl on shut) {flags : Fin 8} {spare : Fin 64}
    {filepath : Str} {perms : Nat}
    (hfits : (AttributeRequest.permissions flags spare filepath perms).Fits sys)
    {s : LocalServer σ ι} {rest : Str}
    (h : Attending on s m ((AttributeRequest.permissions flags spare filepath perms).body ++ rest) out) :
    wp (setAttributes sys cl) (fun _ t => Attending on t
      ((AttributeRequest.permissions flags spare filepath perms).perform sys m).1 rest
      (out ++ ((AttributeRequest.permissions flags spare filepath perms).perform sys m).2))
      (fun _ _ => False) s := by
  obtain ⟨hlen,hperms⟩ := hfits
  have hspare := spare.isLt
  have hb : (UInt8.ofNat (128 + spare)).toNat = 128 + spare := by
    rw [UInt8.toNat_ofNat',Nat.mod_eq_of_lt (by omega)]
  have hsub : (128 + spare.val) / 64 = 2 := by omega
  rw [body,List.append_assoc,List.append_assoc] at h
  refine (parses_u8 hcl.serving_reads _).before h fun t ht => ?_
  refine (parses_string hcl.serving_reads hlen).before ht fun u hu => ?_
  rw [hb,hsub]
  change wp (setPermissions sys cl filepath) _ _ u
  rw [setPermissions]
  exact (parses_u32 hcl.serving_reads hperms).before hu fun v hv => hcl.wp_answer hv

theorem Streams.performs_check (hcl : Streams cl on shut) {flags : Fin 8} {filepath : Str}
    (hlen : filepath.length < 65536) {s : LocalServer σ ι} {rest : Str}
    (h : Attending on s m (stringBytes filepath ++ rest) out) :
    wp (existsIsFileIsDir sys cl flags) (fun _ t => Attending on t
      ((AttributeRequest.check flags filepath).perform sys m).1 rest
      (out ++ ((AttributeRequest.check flags filepath).perform sys m).2)) (fun _ _ => False) s := by
  have answer : ∀ (n : Nat) (m' : Machine ι) (v : LocalServer σ ι), Attending on v m' rest out →
      wp ((inOutDesc cl).sendBaseResponse 0 0) (fun _ w =>
        wp ((inOutDesc cl).writeAllOrExit (.u8 (.ofNat n)))
          (fun _ t => Attending on t m' rest (out ++ [RESPONSE_OK,.ofNat n])) (fun _ _ => False) w)
        (fun _ _ => False) v := by
    intro n m' v hv
    refine wp_mono (hcl.prints_respond (.ok ()) v out hv) (fun _ w hw => ?_) fun _ _ h => h
    have hbyte := hcl.serving_writes (c := .u8 (.ofNat n)) (by simp [Chunk.encode]) w _ hw
    rwa [List.append_assoc] at hbyte
  refine (parses_string hcl.serving_reads hlen).before h fun t ht => ?_
  obtain ⟨hon,rfl⟩ := ht
  rw [perform,Machine.check]
  cases hfollow : sys.follow t.machine.inodes filepath with
  | ok i =>
    cases hbit : b0 flags with
    | false =>
      simp only [Bool.false_eq_true,if_false,false_and,wp_bind,wp_pure,wp_get,wp_call,Machine.stat,
        hfollow,Nat.zero_add]
      exact answer _ _ _ ⟨hon,rfl⟩
    | true =>
      simp only [if_true,true_and,wp_bind,wp_call,Machine.stat,hfollow]
      rw [if_neg (by simp [Except.map,Except.toOption])]
      simp only [wp_bind,wp_get,wp_pure,wp_call,Machine.called,hfollow]
      exact answer _ _ _ ⟨hon,rfl⟩
  | error e =>
    cases hbit : b0 flags with
    | false =>
      simp only [Bool.false_eq_true,if_false,false_and,wp_bind,wp_pure,wp_get,wp_call,Machine.stat,
        hfollow,Nat.zero_add]
      exact answer _ _ _ ⟨hon,rfl⟩
    | true =>
      simp only [if_true,true_and,wp_bind,wp_call,Machine.stat,hfollow]
      exact answer _ _ _ ⟨hon,rfl⟩

theorem Streams.performs_kill (hcl : Streams cl on shut) {flags : Fin 8} {pid sig : Nat}
    (hfits : (AttributeRequest.kill flags pid sig).Fits sys) {s : LocalServer σ ι} {rest : Str}
    (h : Attending on s m ((AttributeRequest.kill flags pid sig).body ++ rest) out) :
    wp (killProcess sys cl) (fun _ t => Attending on t ((AttributeRequest.kill flags pid sig).perform sys m).1
      rest (out ++ ((AttributeRequest.kill flags pid sig).perform sys m).2)) (fun _ _ => False) s := by
  obtain ⟨hpid,hsig,hgoes⟩ := hfits
  rw [body,List.append_assoc] at h
  refine (parses_u32 hcl.serving_reads hpid).before h fun t ht => ?_
  refine (parses_u32 hcl.serving_reads hsig).before ht fun u hu => ?_
  obtain ⟨hon,rfl⟩ := hu
  rw [wp_bind,wp_get]
  cases hkill : sys.kill u.machine.calls pid sig with
  | refused e =>
    simp only [perform,Machine.signal,hkill,wp_bind,wp_call]
    exact hcl.prints_respond _ _ out ⟨hon,rfl⟩
  | sent =>
    simp only [perform,Machine.signal,hkill,wp_bind,wp_call]
    exact hcl.prints_respond _ _ out ⟨hon,rfl⟩
  | ends => exact absurd hkill (hgoes _)

/-- Each of these requests is taken from the stream whole, does what it is for and is answered. -/
theorem Streams.performs (hcl : Streams cl on shut) {r : AttributeRequest} (hfits : r.Fits sys) :
    Performs (Attending on) (serveAttributes sys cl) AttributeRequest.bytes (AttributeRequest.perform sys) r := by
  intro s m rest out h
  rw [AttributeRequest.bytes,List.append_assoc] at h
  refine ((parses_u8 hcl.serving_reads r.rq.byte).map request_type.ofByte).before h fun t ht => ?_
  rw [request_type.ofByte_byte]
  cases r with
  | dates flags spare filepath access modification => exact hcl.performs_dates hfits ht
  | ownership flags spare filepath owner group => exact hcl.performs_ownership hfits ht
  | permissions flags spare filepath perms => exact hcl.performs_permissions hfits ht
  | check flags filepath => exact hcl.performs_check hfits ht
  | kill flags pid sig => exact hcl.performs_kill hfits ht
  | getPid flags =>
    obtain ⟨hon,rfl⟩ := ht
    exact hcl.serving_writes (c := .u32 sys.pid) (by simp [Chunk.encode,littleEndian]) t out ⟨hon,rfl⟩

end Requests

section Sessions

variable [DecidableEq ι] {rs : List AttributeRequest} {rest : Str} {s : LocalServer σ ι}

/-- Requests that are sent one behind the other are performed one after the other, each on what the ones
before it have left, and the answers come in their order; what is sent behind them is still to be read. -/
theorem attribute_session (hcl : Streams cl on shut) (hfits : ∀ r ∈ rs, r.Fits sys)
    (hon : on s.client (rs.flatMap AttributeRequest.bytes ++ rest) out) :
    ∃ t, times (serveAttributes sys cl) rs.length s = .ok () t ∧
      t.machine = (performAll (AttributeRequest.perform sys) rs s.machine).1 ∧
      on t.client rest (out ++ (performAll (AttributeRequest.perform sys) rs s.machine).2) := by
  have hall := Performs.all (fun r hr => hcl.performs (hfits r hr)) (s := s) (m := s.machine) ⟨hon,rfl⟩
  obtain ⟨⟨⟩,t,ht,hclient,hmachine⟩ := ok_of_wp hall
  exact ⟨t,ht,hmachine,hclient⟩

end Sessions

end Attending

/-- A directory "/d" and in it a file "/d/x", which is found as long as the directory may be searched. -/
def dirAndFile : AttributeSystem Bool where
  follow inodes filepath :=
    if filepath = text ['/','d'] then .ok false
    else if filepath ≠ text ['/','d','/','x'] then .error .ENOENT
    else if (inodes false).mode / 64 % 2 = 1 then .ok true
    else .error .EACCES
  refuse _ := none
  chownedMode st := st.mode
  chowned_bits _ := rfl
  chmoddedMode _ perms := perms
  chmodded_bits _ _ := rfl
  kill _ _ _ := .sent
  pid := 7
  uninitialized _ := .special

/-- The file is given a date, and once more when nobody may search the directory. -/
def datesAndHides : List AttributeRequest :=
  [.dates 0 0 (text ['/','d','/','x']) none (some 5),.permissions 0 0 (text ['/','d']) 0,
    .dates 0 0 (text ['/','d','/','x']) none (some 6),.kill 0 9 15]

theorem datesAndHides_fit : ∀ r ∈ datesAndHides, r.Fits dirAndFile := by
  have hkill : ∀ calls, dirAndFile.kill calls 9 15 ≠ .ends := fun _ h => nomatch h
  simp only [datesAndHides,List.forall_mem_cons,AttributeRequest.Fits]
  exact ⟨⟨by decide,by simp,by simp⟩,by decide,⟨by decide,by simp,by simp⟩,
    ⟨by decide,by decide,hkill⟩,by simp⟩

def hidingServer : LocalServer ByteSocket Bool :=
  ⟨⟨datesAndHides.flatMap AttributeRequest.bytes,[],[],true⟩,
    ⟨fun i => ⟨if i then .regular else .directory,0o755,0,0,⟨1,2⟩,⟨3,4⟩⟩,0,[]⟩⟩

theorem hidingServer_on : hidingServer.client.On (datesAndHides.flatMap AttributeRequest.bytes ++ []) [] :=
  ⟨(List.append_nil _).symm,rfl,rfl⟩

theorem attribute_session_hiding :
    ∃ t, times (serveAttributes dirAndFile byteSocket) datesAndHides.length hidingServer = .ok () t ∧
      t.machine = (performAll (AttributeRequest.perform dirAndFile) datesAndHides hidingServer.machine).1 ∧
      t.client.On [] ([] ++ (performAll (AttributeRequest.perform dirAndFile) datesAndHides
        hidingServer.machine).2) ∧
      (performAll (AttributeRequest.perform dirAndFile) datesAndHides hidingServer.machine).2 =
        [RESPONSE_OK,RESPONSE_OK,RESPONSE_ERROR,13,0,0,0,RESPONSE_OK] := by
  obtain ⟨t,ht,hmachine,hon⟩ :=
    attribute_session byteSocket_streams datesAndHides_fit hidingServer_on
  exact ⟨t,ht,hmachine,hon,by decide +kernel⟩

/-! ### What is left alone -/

/-- Dates are to the second and permissions without the bits above the nine, instants and modes as a whole. -/
inductive AttributeField where
  | fileType | accessDate | modificationDate | owner | group | permissions
  | accessInstant | modificationInstant | mode
  deriving DecidableEq, Repr

def Attributes.value (st : Attributes) : AttributeField → List Int
  | .fileType => match st.fileType with
    | .regular => [0]
    | .directory => [1]
    | .special => [2]
  | .accessDate => [st.atime.tv_sec]
  | .modificationDate => [st.mtime.tv_sec]
  | .owner => [st.uid]
  | .group => [st.gid]
  | .permissions => [(st.mode % 512 : Nat)]
  | .accessInstant => [st.atime.tv_sec,st.atime.tv_nsec]
  | .modificationInstant => [st.mtime.tv_sec,st.mtime.tv_nsec]
  | .mode => [st.mode]

/-- A date that is written back loses its fraction, and with new owners bits of the mode may be cleared. -/
def AttributeRequest.asks : AttributeRequest → AttributeField → Bool
  | dates _ _ _ access _, .accessDate => access.isSome
  | dates _ _ _ _ modification, .modificationDate => modification.isSome
  | dates .., .accessInstant | dates .., .modificationInstant => true
  | ownership _ _ _ owner _, .owner => owner.any (· ≠ unchanged)
  | ownership _ _ _ _ group, .group => group.any (· ≠ unchanged)
  | ownership .., .mode => true
  | permissions _ _ _ _, .permissions | permissions .., .mode => true
  | _, _ => false

def AttributeRequest.signal : AttributeRequest → Option (Nat × Nat)
  | kill _ pid sig => some (pid,sig)
  | _ => none

section Kept

variable {ι : Type} [DecidableEq ι] {sys : AttributeSystem ι} {m : Machine ι}

theorem change_keeps {filepath : Str} {f : Attributes → Attributes} {α : Type} {v : Attributes → α}
    (hf : ∀ st, v (f st) = v st) (i : ι) : v ((m.change sys filepath f).2.inodes i) = v (m.inodes i) := by
  unfold Machine.change
  cases sys.follow m.inodes filepath with
  | error e => rfl
  | ok j =>
    cases sys.refuse m.calls with
    | some e => rfl
    | none =>
      by_cases hij : i = j
      · subst hij
        simp [hf]
      · simp [hij]

theorem edit_keeps {filepath : Str} {f : Attributes → Attributes} {α : Type} {v : Attributes → α}
    (hf : ∀ st, v (f st) = v st) (i : ι) : v ((m.edit sys filepath f).1.inodes i) = v (m.inodes i) := by
  unfold Machine.edit
  cases sys.follow m.inodes filepath with
  | error e => rfl
  | ok j => exact change_keeps hf i

/-- What a request does not ask for stays as it is in every file. -/
theorem AttributeRequest.perform_keeps {r : AttributeRequest} {field : AttributeField} (hasks : r.asks field = false)
    (i : ι) : ((r.perform sys m).1.inodes i).value field = (m.inodes i).value field := by
  cases r with
  | dates flags spare filepath access modification =>
    refine @edit_keeps _ _ sys m filepath _ _ (fun st => st.value field) (fun st => ?_) i
    cases field with
    | accessDate =>
      obtain rfl := Option.isNone_iff_eq_none.mp (Option.isSome_eq_false_iff.mp hasks)
      rfl
    | modificationDate =>
      obtain rfl := Option.isNone_iff_eq_none.mp (Option.isSome_eq_false_iff.mp hasks)
      rfl
    | accessInstant => cases hasks
    | modificationInstant => cases hasks
    | _ => rfl
  | ownership flags spare filepath owner group =>
    refine @edit_keeps _ _ sys m filepath _ _ (fun st => st.value field) (fun st => ?_) i
    have kept : ∀ (x : Option Nat) (n : Nat), x.any (· ≠ unchanged) = false →
        (x.filter (· ≠ unchanged)).getD n = n := by
      intro x n hx
      cases x with
      | none => rfl
      | some k => simp_all [Option.filter_some]
    cases field with
    | owner => exact congrArg (fun n : Nat => [(n : Int)]) (kept _ _ hasks)
    | group => exact congrArg (fun n : Nat => [(n : Int)]) (kept _ _ hasks)
    | permissions => exact congrArg (fun n : Nat => [(n : Int)]) (sys.chowned_bits st)
    | mode => cases hasks
    | _ => rfl
  | permissions flags spare filepath perms =>
    change ((m.chmod sys filepath perms).2.inodes i).value field = _
    refine @change_keeps _ _ sys m filepath _ _ (fun st => st.value field) (fun st => ?_) i
    cases field with
    | permissions => cases hasks
    | mode => cases hasks
    | _ => rfl
  | check flags filepath =>
    rw [perform,Machine.check]
    cases sys.follow m.inodes filepath with
    | error e => rfl
    | ok j => cases hbit : b0 flags <;> rfl
  | kill flags pid sig =>
    rw [perform,Machine.signal]
    cases hkill : sys.kill m.calls pid sig <;> rfl
  | getPid flags => rfl

theorem AttributeRequest.perform_signals (r : AttributeRequest) : ∃ l,
    (r.perform sys m).1.signalled = m.signalled ++ l ∧ l.Sublist r.signal.toList := by
  have changes : ∀ (m : Machine ι) filepath f, (m.change sys filepath f).2.signalled = m.signalled := by
    intro m filepath f
    unfold Machine.change
    cases sys.follow m.inodes filepath with
    | error e => rfl
    | ok i => cases sys.refuse m.calls <;> rfl
  have edits : ∀ filepath f, (m.edit sys filepath f).1.signalled = m.signalled := by
    intro filepath f
    unfold Machine.edit
    cases sys.follow m.inodes filepath with
    | error e => rfl
    | ok i => exact changes _ _ _
  have silent : (r.perform sys m).1.signalled = m.signalled → ∃ l,
      (r.perform sys m).1.signalled = m.signalled ++ l ∧ l.Sublist r.signal.toList := fun h =>
    ⟨[],by rw [h,List.append_nil],List.nil_sublist _⟩
  cases r with
  | dates flags spare filepath access modification => exact silent (edits _ _)
  | ownership flags spare filepath owner group => exact silent (edits _ _)
  | permissions flags spare filepath perms =>
    refine silent ?_
    change (m.chmod sys filepath perms).2.signalled = _
    exact changes _ _ _
  | check flags filepath =>
    refine silent ?_
    rw [perform,Machine.check]
    cases sys.follow m.inodes filepath with
    | error e => rfl
    | ok j => cases hbit : b0 flags <;> rfl
  | kill flags pid sig =>
    rw [perform,Machine.signal]
    cases hkill : sys.kill m.calls pid sig with
    | refused e => exact ⟨[],(List.append_nil _).symm,List.nil_sublist _⟩
    | _ => exact ⟨[(pid,sig)],rfl,List.Sublist.refl _⟩
  | getPid flags => exact silent rfl

theorem performAll_signals (rs : List AttributeRequest) : ∃ l,
    (performAll (AttributeRequest.perform sys) rs m).1.signalled = m.signalled ++ l ∧
      l.Sublist (rs.filterMap AttributeRequest.signal) := by
  induction rs generalizing m with
  | nil => exact ⟨[],(List.append_nil _).symm,List.nil_sublist _⟩
  | cons r rs ih =>
    obtain ⟨l,hl,hsub⟩ := @AttributeRequest.perform_signals _ _ sys m r
    obtain ⟨l',hl',hsub'⟩ := @ih (r.perform sys m).1
    have hsignals : (r :: rs).filterMap AttributeRequest.signal =
        r.signal.toList ++ rs.filterMap AttributeRequest.signal := by
      rw [List.filterMap_cons]
      cases r.signal <;> rfl
    refine ⟨l ++ l',?_,?_⟩
    · rw [← List.append_assoc,← hl]
      exact hl'
    · rw [hsignals]
      exact hsub.append hsub'

end Kept

section Kept

variable {σ ι : Type} [DecidableEq ι] {sys : AttributeSystem ι} {cl : Descriptor Stop σ}
  {on : σ → Str → Str → Prop} {shut : σ → Str → Prop} {out rest : Str} {rs : List AttributeRequest}
  {s : LocalServer σ ι}

/-- A session changes nothing that none of its requests asks for, in no file, whichever calls are refused and
wherever the paths lead; and it sends no signals but those that are asked for, each at most once and in
their order. -/
theorem attributes_kept (hcl : Streams cl on shut) (hfits : ∀ r ∈ rs, r.Fits sys)
    (hon : on s.client (rs.flatMap AttributeRequest.bytes ++ rest) out) :
    ∃ t, times (serveAttributes sys cl) rs.length s = .ok () t ∧
      (∀ field, (∀ r ∈ rs, r.asks field = false) → ∀ i,
        (t.machine.inodes i).value field = (s.machine.inodes i).value field) ∧
      ∃ l, t.machine.signalled = s.machine.signalled ++ l ∧
        l.Sublist (rs.filterMap AttributeRequest.signal) := by
  have hall := Performs.all (fun r hr => hcl.performs (hfits r hr)) (s := s) (m := s.machine) ⟨hon,rfl⟩
  obtain ⟨⟨⟩,t,ht,_,hmachine⟩ := ok_of_wp hall
  refine ⟨t,ht,fun field hasks i => ?_,?_⟩
  · rw [hmachine]
    let Same (m : Machine ι) : Prop := (m.inodes i).value field = (s.machine.inodes i).value field
    have keeps : ∀ r ∈ rs, ∀ m, Same m → Same (r.perform sys m).1 := fun r hr m hm =>
      (AttributeRequest.perform_keeps (hasks r hr) i).trans hm
    exact performAll_keeps keeps rfl
  · rw [hmachine]
    exact performAll_signals rs

end Kept

theorem attributes_kept_hiding :
    ∃ t, times (serveAttributes dirAndFile byteSocket) datesAndHides.length hidingServer = .ok () t ∧
      (∀ field, (∀ r ∈ datesAndHides, r.asks field = false) → ∀ i,
        (t.machine.inodes i).value field = (hidingServer.machine.inodes i).value field) ∧
      ∃ l, t.machine.signalled = hidingServer.machine.signalled ++ l ∧
        l.Sublist (datesAndHides.filterMap AttributeRequest.signal) :=
  attributes_kept byteSocket_streams datesAndHides_fit hidingServer_on

end RootHelper
