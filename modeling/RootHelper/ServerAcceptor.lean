import Mathlib.Logic.Function.Basic
import RootHelper.Control.Systems
import RootHelper.Posix.Children
import RootHelper.Protocol

/-!
The management of the remote server: requests to start it, to stop it and for its status, from any number
of clients. What the helper knows of the acceptor is the number of its process; the acceptor also ends by
itself, and then its number stands for another process some time.
-/

set_option autoImplicit false

namespace RootHelper
open Posix Control

def ESRCH : Nat := 3

/-- What a child of the helper does. -/
inductive ServerTask where
  /-- The acceptor of that turn, and whether it has been sent `SIGINT`. -/
  | acceptor (turn : Nat) (interrupted : Bool)
  | p7ZipSession
  deriving DecidableEq, Repr

/-- What a signal is sent to. -/
inductive SignalTarget where
  | child (c : Child ServerTask)
  | otherProcess (pid : Nat)
  /-- With a number that is not positive it is sent to more than one process. -/
  | many
  deriving DecidableEq, Repr

/-- Where the thread of a client is. -/
inductive ManagementPlace where
  | serving
  /-- In `forkServerAcceptor`, with a listening socket. -/
  | bound
  /-- Before the number is stored. -/
  | forked (pid : Nat)
  /-- In `killServerAcceptor`, with a positive number. -/
  | stopping
  /-- Before the number is reset. -/
  | killed
  /-- In `getServerAcceptorStatus`, with the first response sent. -/
  | asked
  | ended
  deriving DecidableEq, Repr

inductive ManagementEvent where
  /-- A stop has been served, and this has been sent. -/
  | stopped (response : Str)
  /-- A status, when the acceptor was alive or not. -/
  | status (alive : Bool) (response : Str)
  | signalled (target : SignalTarget)
  deriving DecidableEq, Repr

structure Management (n : Nat) where
  children : List (Child ServerTask)
  /-- The numbers of other processes. -/
  others : List Nat
  rhss_pid : Int
  /-- How many acceptors have been forked. -/
  turns : Nat
  /-- The helper itself has the listening socket, which stays open where `fork` fails. -/
  listening : Bool
  place : Fin n → ManagementPlace
  log : List ManagementEvent

inductive ManagementAct (n : Nat) where
  /-- A start that is refused: no keys, no socket, no port. -/
  | startRefused (thread : Fin n)
  | getServerSocket (thread : Fin n)
  | fork (thread : Fin n) (pid : Nat)
  | forkFails (thread : Fin n)
  | storePid (thread : Fin n)
  | stop (thread : Fin n)
  | kill (thread : Fin n)
  | resetPid (thread : Fin n)
  | status (thread : Fin n)
  | checkPid (thread : Fin n)
  | childEnds (pid : Nat)
  /-- A compression or an extraction is forked. -/
  | forkP7ZipSession (pid : Nat)
  /-- The `wait` of such a session returns, for any child. -/
  | waitReturns (pid : Nat)
  | otherBegins (pid : Nat)
  | otherEnds (pid : Nat)
  deriving DecidableEq, Repr

namespace ServerTask

def isAcceptor : ServerTask → Bool
  | acceptor _ _ => true
  | p7ZipSession => false

/-- The last acceptor that has been forked. -/
def isLast (turns : Nat) : ServerTask → Bool
  | acceptor turn _ => turn = turns
  | p7ZipSession => false

def interrupt : ServerTask → ServerTask
  | acceptor turn _ => acceptor turn true
  | p7ZipSession => p7ZipSession

def accepts : ServerTask → Bool
  | acceptor _ interrupted => ! interrupted
  | p7ZipSession => false

end ServerTask

namespace Management

variable {n : Nat}

/-- Before any start the number is -2. -/
def start : Management n := ⟨[],[],-2,0,false,fun _ => .serving,[]⟩

def alive (s : Management n) : Bool := s.children.any fun c => c.running && c.task.isLast s.turns

def goes (s : Management n) (thread : Fin n) (place : ManagementPlace) : Management n :=
  { s with place := Function.update s.place thread place }

def notes (s : Management n) (e : ManagementEvent) : Management n := { s with log := e :: s.log }

/-- A running acceptor has the port. -/
def portTaken (s : Management n) : Bool :=
  s.listening || s.children.any fun c => c.running && c.task.isAcceptor

/-- What a signal with this number gets to. -/
def target (s : Management n) (pid : Int) : Option SignalTarget :=
  if pid ≤ 0 then some .many
  else
    match s.children.find? fun c => c.pid = pid.toNat with
    | some c => some (.child c)
    | none => if pid.toNat ∈ s.others then some (.otherProcess pid.toNat) else none

def interrupt (s : Management n) (t : SignalTarget) : Management n :=
  match t with
  | .child c => { s with
      children := s.children.map fun c' =>
        if c'.pid = c.pid then { c' with task := c'.task.interrupt } else c' }
  | _ => s

/-- The kernel gives no number that another process has. -/
def fork (s : Management n) (pid : Nat) (task : ServerTask) : Option (Management n) :=
  if pid ∈ s.others then none
  else (Child.fork s.children pid task).map fun children => { s with children := children }

def step : ManagementAct n → Management n → Option (Management n)
  | .startRefused thread, s =>
    if s.place thread = .serving then some (s.goes thread .ended) else none
  | .getServerSocket thread, s =>
    if s.place thread = .serving ∧ s.portTaken = false then
      some ({ s with listening := true }.goes thread .bound)
    else none
  | .fork thread pid, s =>
    if s.place thread = .bound then
      (s.fork pid (.acceptor (s.turns+1) false)).map fun t =>
        { t with turns := s.turns+1 }.goes thread (.forked pid)
    else none
  | .forkFails thread, s => if s.place thread = .bound then some (s.goes thread .ended) else none
  | .storePid thread, s =>
    match s.place thread with
    | .forked pid => some ({ s with rhss_pid := pid, listening := false }.goes thread .ended)
    | _ => none
  | .stop thread, s =>
    if s.place thread = .serving then
      if 0 < s.rhss_pid then some (s.goes thread .stopping) else some (s.notes (.stopped []))
    else none
  | .kill thread, s =>
    if s.place thread = .stopping then
      match s.target s.rhss_pid with
      | some t => some (((s.interrupt t).notes (.signalled t)).goes thread .killed)
      | none => some ((s.notes (.stopped (RESPONSE_ERROR :: littleEndian 4 ESRCH))).goes thread .serving)
    else none
  | .resetPid thread, s =>
    if s.place thread = .killed then
      some (({ s with rhss_pid := -1 }.notes (.stopped [RESPONSE_OK])).goes thread .serving)
    else none
  | .status thread, s => if s.place thread = .serving then some (s.goes thread .asked) else none
  | .checkPid thread, s =>
    if s.place thread = .asked then
      let running := if 0 < s.rhss_pid then RESPONSE_OK else RESPONSE_ERROR
      some ((s.notes (.status s.alive [RESPONSE_OK,running])).goes thread .serving)
    else none
  | .childEnds pid, s => (Child.exit s.children pid).map fun children => { s with children := children }
  | .forkP7ZipSession pid, s => s.fork pid .p7ZipSession
  | .waitReturns pid, s => (Child.wait s.children pid).map fun children => { s with children := children }
  | .otherBegins pid, s =>
    if 0 < pid ∧ (∀ c ∈ s.children, c.pid ≠ pid) ∧ pid ∉ s.others then
      some { s with others := pid :: s.others }
    else none
  | .otherEnds pid, s => some { s with others := s.others.erase pid }

end Management

/-- A stop gets one response; a status gets one that says whether the last acceptor is alive; a signal
goes to an acceptor that is alive. -/
def ManagementEvent.Right : ManagementEvent → Prop
  | stopped response => response = [RESPONSE_OK] ∨ ∃ e, response = RESPONSE_ERROR :: littleEndian 4 e
  | status alive response => response = [RESPONSE_OK,if alive then RESPONSE_OK else RESPONSE_ERROR]
  | signalled target => ∃ c, target = .child c ∧ c.running = true ∧ c.task.isAcceptor = true

namespace Management

variable {n : Nat} {s t : Management n}

def underWay : ManagementPlace → Bool
  | .serving | .ended => false
  | _ => true

/-- The requests come one after the other. -/
def Quiet (s : Management n) : Prop := ∀ thread, underWay (s.place thread) = false

/-- A stop comes when there is a number, and a status when no stop is still to take effect; an acceptor
that has not been stopped does not end. -/
def Orderly (s : Management n) : ManagementAct n → Prop
  | .getServerSocket _ => s.Quiet
  | .stop _ => s.Quiet ∧ 0 < s.rhss_pid
  | .status _ => s.Quiet ∧ ∀ c ∈ s.children, c.running = true → c.task.isAcceptor = c.task.accepts
  | .childEnds pid => ∀ c ∈ s.children, c.pid = pid → c.running = true → c.task.accepts = false
  | _ => True

/-- The acceptor that goes on is the last one and has this number, if it is the number of a process. -/
structure Accepts (s : Management n) (pid : Int) : Prop where
  only : ∀ c ∈ s.children, c.running = true → c.task.accepts = true →
    (c.pid : Int) = pid ∧ c.task = .acceptor s.turns false
  there : 0 < pid → ⟨pid.toNat,.acceptor s.turns false,true⟩ ∈ s.children

def Settled (s : Management n) : Prop :=
  ∀ c ∈ s.children, c.running = true → c.task.isAcceptor = c.task.accepts

/-- While a thread is there and no other is under way. -/
def During (s : Management n) : ManagementPlace → Prop
  | .serving | .ended => s.Accepts s.rhss_pid
  | .bound => s.rhss_pid ≤ 0 ∧ ∀ c ∈ s.children, c.running = true → c.task.isAcceptor = false
  | .forked pid => s.rhss_pid ≤ 0 ∧ s.Accepts pid
  | .stopping => 0 < s.rhss_pid ∧ s.Accepts s.rhss_pid
  | .killed => s.Accepts (-1)
  | .asked => s.Accepts s.rhss_pid ∧ s.Settled

def OthersQuiet (s : Management n) (thread : Fin n) : Prop :=
  ∀ thread', thread' ≠ thread → underWay (s.place thread') = false

structure Sound (s : Management n) : Prop where
  numbered : Child.Numbered s.children
  alone : ∀ thread, underWay (s.place thread) = true → s.OthersQuiet thread
  during : ∀ thread, s.OthersQuiet thread → s.During (s.place thread)
  right : ∀ e ∈ s.log, e.Right

theorem sound_start : (start : Management n).Sound where
  numbered := ⟨fun _ hc => (by cases hc),fun _ hc => (by cases hc)⟩
  alone thread hbusy := by cases hbusy
  during _ _ := ⟨fun _ hc => (by cases hc),fun hpos => (by cases hpos)⟩
  right _ he := by cases he

theorem during_of_not_underWay {place : ManagementPlace} (h : underWay place = false) :
    s.During place ↔ s.Accepts s.rhss_pid := by
  cases place <;> first | exact Iff.rfl | cases h

@[simp] theorem goes_place_self (thread : Fin n) (place : ManagementPlace) :
    (s.goes thread place).place thread = place := by
  simp [goes]

theorem goes_place_of_ne {thread thread' : Fin n} (place : ManagementPlace) (h : thread' ≠ thread) :
    (s.goes thread place).place thread' = s.place thread' := by
  simp [goes,h]

/-! ### Children that come and go -/

/-- No acceptor is new, and those that go on stay. -/
structure SameAcceptors (s t : Management n) : Prop where
  rhss_pid : t.rhss_pid = s.rhss_pid
  turns : t.turns = s.turns
  old : ∀ c ∈ t.children, c.running = true → c.task.isAcceptor = true → c ∈ s.children
  stay : ∀ c ∈ s.children, c.running = true → c.task.accepts = true → c ∈ t.children

theorem isAcceptor_of_accepts {task : ServerTask} (h : task.accepts = true) : task.isAcceptor = true := by
  cases task with
  | acceptor turn interrupted => rfl
  | p7ZipSession => cases h

section SameAcceptors

variable (h : s.SameAcceptors t)

include h

theorem SameAcceptors.accepts {pid : Int} (hs : s.Accepts pid) : t.Accepts pid where
  only c hc hrun hgoes := by
    rw [h.turns]
    exact hs.only c (h.old c hc hrun (isAcceptor_of_accepts hgoes)) hrun hgoes
  there hpos := by
    rw [h.turns]
    exact h.stay _ (hs.there hpos) rfl rfl

theorem SameAcceptors.during {place : ManagementPlace} (hs : s.During place) : t.During place := by
  have hnew : ∀ c ∈ t.children, c.running = true → c.task.isAcceptor = false ∨ c ∈ s.children := by
    intro c hc hrun
    cases hkind : c.task.isAcceptor with
    | false => exact .inl rfl
    | true => exact .inr (h.old c hc hrun hkind)
  cases place with
  | serving =>
    rw [During,h.rhss_pid]
    exact h.accepts hs
  | bound =>
    rw [During,h.rhss_pid]
    refine ⟨hs.1,fun c hc hrun => ?_⟩
    exact (hnew c hc hrun).elim id fun hold => hs.2 c hold hrun
  | forked pid =>
    rw [During,h.rhss_pid]
    exact ⟨hs.1,h.accepts hs.2⟩
  | stopping =>
    rw [During,h.rhss_pid]
    exact ⟨hs.1,h.accepts hs.2⟩
  | killed => exact h.accepts hs
  | asked =>
    rw [During,h.rhss_pid]
    refine ⟨h.accepts hs.1,fun c hc hrun => ?_⟩
    rcases hnew c hc hrun with hkind | hold
    · rw [hkind]
      by_contra hne
      have hgoes : c.task.accepts = true := by simpa using Ne.symm hne
      rw [isAcceptor_of_accepts hgoes] at hkind
      cases hkind
    · exact hs.2 c hold hrun
  | ended =>
    rw [During,h.rhss_pid]
    exact h.accepts hs

theorem SameAcceptors.sound (hs : s.Sound) (hplace : t.place = s.place) (hlog : t.log = s.log)
    (hnumbered : Child.Numbered t.children) : t.Sound where
  numbered := hnumbered
  alone thread hbusy := by
    rw [hplace] at hbusy
    intro thread' hne
    rw [hplace]
    exact hs.alone thread hbusy thread' hne
  during thread hquiet := by
    rw [hplace]
    exact h.during (hs.during thread fun thread' hne => hplace ▸ hquiet thread' hne)
  right := hlog ▸ hs.right

end SameAcceptors

theorem sameAcceptors_goes {thread : Fin n} {place : ManagementPlace} :
    t.SameAcceptors (t.goes thread place) :=
  ⟨rfl,rfl,fun _ hc _ _ => hc,fun _ hc _ _ => hc⟩

theorem sound_goes {thread : Fin n} {place : ManagementPlace} (hquiet : t.OthersQuiet thread)
    (hnumbered : Child.Numbered t.children) (hduring : t.During place) (hright : ∀ e ∈ t.log, e.Right) :
    (t.goes thread place).Sound where
  numbered := hnumbered
  alone thread₁ hbusy := by
    have hsame : thread₁ = thread := by
      by_contra hne
      rw [goes_place_of_ne place hne,hquiet thread₁ hne] at hbusy
      cases hbusy
    rw [hsame]
    intro thread₂ hne
    rw [goes_place_of_ne place hne]
    exact hquiet thread₂ hne
  during thread₁ hquiet₁ := by
    by_cases hsame : thread₁ = thread
    · rw [hsame,goes_place_self]
      exact sameAcceptors_goes.during hduring
    · have hidle := hquiet₁ thread (Ne.symm hsame)
      rw [goes_place_self] at hidle
      rw [goes_place_of_ne place hsame]
      refine (during_of_not_underWay (hquiet thread₁ hsame)).mpr ?_
      exact sameAcceptors_goes.accepts ((during_of_not_underWay hidle).mp hduring)
  right := hright

/-- A thread that is not under way may go where it is not either. -/
theorem Sound.goes {thread : Fin n} {place : ManagementPlace} (hs : s.Sound)
    (hplace : underWay (s.place thread) = false) (hidle : underWay place = false) :
    (s.goes thread place).Sound := by
  have hsame : ∀ thread', underWay ((s.goes thread place).place thread') =
      underWay (s.place thread') := by
    intro thread'
    by_cases heq : thread' = thread
    · rw [heq,goes_place_self,hplace,hidle]
    · rw [goes_place_of_ne place heq]
  constructor
  · exact hs.numbered
  · intro thread₁ hbusy thread₂ hne
    rw [hsame] at hbusy ⊢
    exact hs.alone thread₁ hbusy thread₂ hne
  · intro thread₁ hquiet
    have hduring := hs.during thread₁ fun thread₂ hne => (hsame thread₂).symm.trans (hquiet thread₂ hne)
    by_cases heq : thread₁ = thread
    · rw [heq] at hduring
      rw [heq,goes_place_self]
      refine (during_of_not_underWay hidle).mpr ?_
      exact sameAcceptors_goes.accepts ((during_of_not_underWay hplace).mp hduring)
    · rw [goes_place_of_ne place heq]
      exact sameAcceptors_goes.during hduring
  · exact hs.right

theorem accepts_of_none {pid : Int} (hpid : pid ≤ 0)
    (hnone : ∀ c ∈ s.children, c.running = true → c.task.isAcceptor = false) : s.Accepts pid where
  only c hc hrun hgoes := by
    have hkind := hnone c hc hrun
    rw [isAcceptor_of_accepts hgoes] at hkind
    cases hkind
  there hpos := by omega

theorem Quiet.others (h : s.Quiet) (thread : Fin n) : s.OthersQuiet thread := fun thread' _ => h thread'

theorem Sound.at_place (hs : s.Sound) {thread : Fin n} {place : ManagementPlace}
    (hplace : s.place thread = place) (hbusy : underWay place = true) :
    s.OthersQuiet thread ∧ s.During place := by
  have hothers := hs.alone thread (hplace ▸ hbusy)
  exact ⟨hothers,hplace ▸ hs.during thread hothers⟩

theorem Sound.served (hs : s.Sound) {thread : Fin n} (hplace : s.place thread = .serving)
    (hquiet : s.Quiet) : s.Accepts s.rhss_pid := by
  have hduring := hs.during thread (hquiet.others thread)
  rw [hplace] at hduring
  exact hduring

theorem right_notes {e : ManagementEvent} (hright : ∀ e ∈ s.log, e.Right) (he : e.Right) :
    ∀ e' ∈ (s.notes e).log, e'.Right := by
  intro e' he'
  rcases List.mem_cons.mp he' with rfl | he'
  · exact he
  · exact hright e' he'

theorem exists_of_fork {pid : Nat} {task : ServerTask} (h : s.fork pid task = some t) :
    ∃ children, Child.fork s.children pid task = some children ∧ t = { s with children := children } := by
  unfold fork at h
  split at h
  · cases h
  · obtain ⟨children,hfork,ht⟩ := Option.map_eq_some_iff.mp h
    exact ⟨children,hfork,ht.symm⟩

theorem target_of_accepts {pid : Int} (hnumbered : Child.Numbered s.children) (hpos : 0 < pid)
    (hs : s.Accepts pid) :
    s.target pid = some (.child ⟨pid.toNat,.acceptor s.turns false,true⟩) := by
  unfold target
  rw [if_neg (by omega)]
  have hthere := hs.there hpos
  cases hfind : s.children.find? fun c => c.pid = pid.toNat with
  | none =>
    have hno := List.find?_eq_none.mp hfind _ hthere
    simp at hno
  | some c =>
    have hc := List.mem_of_find?_eq_some hfind
    have hpid : c.pid = pid.toNat := by simpa using List.find?_some hfind
    rw [hnumbered.one c hc _ hthere hpid]

theorem accepts_interrupt {pid : Int} (hs : s.Accepts pid) :
    (s.interrupt (.child ⟨pid.toNat,.acceptor s.turns false,true⟩)).Accepts (-1) where
  only c hc hrun hgoes := by
    exfalso
    obtain ⟨c₀,hc₀,rfl⟩ := List.mem_map.mp hc
    by_cases hpid : c₀.pid = pid.toNat
    · rw [if_pos hpid] at hgoes
      cases hkind : c₀.task <;> simp [hkind,ServerTask.interrupt,ServerTask.accepts] at hgoes
    · rw [if_neg hpid] at hrun hgoes
      have hsame := (hs.only c₀ hc₀ hrun hgoes).1
      omega
  there hpos := by omega

theorem alive_iff (hs : s.Accepts s.rhss_pid) (hsettled : s.Settled)
    (hnumbered : Child.Numbered s.children) : s.alive = true ↔ 0 < s.rhss_pid := by
  rw [alive,List.any_eq_true]
  constructor
  · intro h
    obtain ⟨c,hc,hlast⟩ := h
    rw [Bool.and_eq_true] at hlast
    have hkind : c.task.isAcceptor = true := by
      cases htask : c.task with
      | acceptor turn interrupted => rfl
      | p7ZipSession => simp [htask,ServerTask.isLast] at hlast
    have hgoes : c.task.accepts = true := (hsettled c hc hlast.1).symm.trans hkind
    have hpid := (hs.only c hc hlast.1 hgoes).1
    have hpos := hnumbered.positive c hc
    omega
  · intro hpos
    exact ⟨_,hs.there hpos,by simp [ServerTask.isLast]⟩

theorem Sound.getServerSocket {thread : Fin n} (hs : s.Sound) (hplace : s.place thread = .serving)
    (hquiet : s.Quiet) (hfree : s.portTaken = false) :
    ({ s with listening := true }.goes thread .bound).Sound := by
  have haccepts := hs.served hplace hquiet
  have hnone : ∀ c ∈ s.children, c.running = true → c.task.isAcceptor = false := by
    intro c hc hrun
    have hall := (Bool.or_eq_false_iff.mp hfree).2
    simpa [hrun] using List.any_eq_false.mp hall c hc
  refine sound_goes (hquiet.others thread) hs.numbered ⟨?_,hnone⟩ hs.right
  change s.rhss_pid ≤ 0
  by_contra hpos
  have hthere := hnone _ (haccepts.there (by omega)) rfl
  cases hthere

theorem Sound.fork {thread : Fin n} {pid : Nat} {u : Management n} (hs : s.Sound)
    (hplace : s.place thread = .bound) (hfork : s.fork pid (.acceptor (s.turns+1) false) = some u) :
    ({ u with turns := s.turns+1 }.goes thread (.forked pid)).Sound := by
  obtain ⟨children,hnew,rfl⟩ := exists_of_fork hfork
  obtain ⟨hothers,hpid,hnone⟩ := hs.at_place hplace rfl
  refine sound_goes hothers (hs.numbered.fork hnew) ⟨hpid,?_,fun _ => ?_⟩ hs.right
  · intro c hc hrun hgoes
    rcases Child.mem_of_fork hnew hc with rfl | hc
    · exact ⟨rfl,rfl⟩
    · have hkind := hnone c hc hrun
      rw [isAcceptor_of_accepts hgoes] at hkind
      cases hkind
  · change _ ∈ children
    rw [(Child.fork_eq_some.mp hnew).2]
    exact List.mem_cons_self

theorem Sound.kill {thread : Fin n} (hs : s.Sound) (hplace : s.place thread = .stopping)
    (h : step (.kill thread) s = some t) : t.Sound := by
  obtain ⟨_,ht⟩ := Option.ite_none_right_eq_some.mp h
  obtain ⟨hothers,hpos,haccepts⟩ := hs.at_place hplace rfl
  rw [target_of_accepts hs.numbered hpos haccepts] at ht
  obtain rfl := Option.some.inj ht
  have hcleared := accepts_interrupt haccepts
  refine sound_goes hothers ?_ ⟨hcleared.only,hcleared.there⟩ ?_
  · refine hs.numbered.map fun c => ?_
    split <;> rfl
  · exact right_notes hs.right ⟨_,rfl,rfl,rfl⟩

theorem Sound.checkPid {thread : Fin n} (hs : s.Sound) (hplace : s.place thread = .asked) :
    ((s.notes (.status s.alive [RESPONSE_OK,if 0 < s.rhss_pid then RESPONSE_OK else RESPONSE_ERROR])).goes
      thread .serving).Sound := by
  obtain ⟨hothers,haccepts,hsettled⟩ := hs.at_place hplace rfl
  have halive := alive_iff haccepts hsettled hs.numbered
  refine sound_goes hothers hs.numbered ⟨haccepts.only,haccepts.there⟩ (right_notes hs.right ?_)
  simp only [ManagementEvent.Right,halive]

/-! ### What becomes of the processes -/

theorem Sound.childEnds {pid : Nat} {children : List (Child ServerTask)} (hs : s.Sound)
    (hstopped : ∀ c ∈ s.children, c.pid = pid → c.running = true → c.task.accepts = false)
    (hexit : Child.exit s.children pid = some children) : { s with children := children }.Sound := by
  refine SameAcceptors.sound (s := s) ⟨rfl,rfl,?_,?_⟩ hs rfl rfl (hs.numbered.exit hexit)
  · intro c hc hrun _
    obtain ⟨c₀,hc₀,_,_,hsame⟩ := Child.mem_of_exit hexit hc
    rw [hsame hrun]
    exact hc₀
  · intro c hc hrun hgoes
    refine Child.mem_exit_of_ne hexit hc fun hpid => ?_
    rw [hstopped c hc hpid hrun] at hgoes
    cases hgoes

theorem Sound.forkP7ZipSession {pid : Nat} (hs : s.Sound) (h : s.fork pid .p7ZipSession = some t) :
    t.Sound := by
  obtain ⟨children,hnew,rfl⟩ := exists_of_fork h
  refine SameAcceptors.sound (s := s) ⟨rfl,rfl,?_,?_⟩ hs rfl rfl (hs.numbered.fork hnew)
  · intro c hc _ hkind
    rcases Child.mem_of_fork hnew hc with rfl | hc
    · cases hkind
    · exact hc
  · intro c hc _ _
    rw [(Child.fork_eq_some.mp hnew).2]
    exact List.mem_cons_of_mem _ hc

theorem Sound.waitReturns {pid : Nat} {children : List (Child ServerTask)} (hs : s.Sound)
    (hwait : Child.wait s.children pid = some children) : { s with children := children }.Sound := by
  refine SameAcceptors.sound (s := s) ⟨rfl,rfl,?_,?_⟩ hs rfl rfl (hs.numbered.wait hwait)
  · exact fun c hc _ _ => (Child.mem_of_wait hwait hc).1
  · intro c hc hrun _
    obtain ⟨⟨c₀,hc₀,hpid,hended⟩,rfl⟩ := Child.wait_eq_some.mp hwait
    refine List.mem_filter.mpr ⟨hc,?_⟩
    have hne : c.pid ≠ pid := fun heq => by
      rw [hs.numbered.one c hc c₀ hc₀ (heq.trans hpid.symm),hended] at hrun
      cases hrun
    simpa using hne

theorem Sound.others (hs : s.Sound) (others : List Nat) : { s with others := others }.Sound :=
  SameAcceptors.sound (s := s) ⟨rfl,rfl,fun _ hc _ _ => hc,fun _ hc _ _ => hc⟩ hs rfl rfl hs.numbered

theorem sound_step {act : ManagementAct n} (hs : s.Sound) (hok : s.Orderly act)
    (h : step act s = some t) : t.Sound := by
  cases act with
  | startRefused thread =>
    obtain ⟨hplace,ht⟩ := Option.ite_none_right_eq_some.mp h
    cases ht
    exact hs.goes (by rw [hplace]; rfl) rfl
  | getServerSocket thread =>
    obtain ⟨⟨hplace,hfree⟩,ht⟩ := Option.ite_none_right_eq_some.mp h
    cases ht
    exact hs.getServerSocket hplace hok hfree
  | fork thread pid =>
    obtain ⟨hplace,ht⟩ := Option.ite_none_right_eq_some.mp h
    obtain ⟨u,hfork,rfl⟩ := Option.map_eq_some_iff.mp ht
    exact hs.fork hplace hfork
  | forkFails thread =>
    obtain ⟨hplace,ht⟩ := Option.ite_none_right_eq_some.mp h
    cases ht
    obtain ⟨hothers,hpid,hnone⟩ := hs.at_place hplace rfl
    exact sound_goes hothers hs.numbered (accepts_of_none hpid hnone) hs.right
  | storePid thread =>
    simp only [step] at h
    split at h
    · rename_i pid hplace
      cases h
      obtain ⟨hothers,_,haccepts⟩ := hs.at_place hplace rfl
      exact sound_goes hothers hs.numbered ⟨haccepts.only,haccepts.there⟩ hs.right
    · cases h
  | stop thread =>
    obtain ⟨hplace,ht⟩ := Option.ite_none_right_eq_some.mp h
    rw [if_pos hok.2] at ht
    cases ht
    exact sound_goes (hok.1.others thread) hs.numbered ⟨hok.2,hs.served hplace hok.1⟩ hs.right
  | kill thread => exact hs.kill (Option.ite_none_right_eq_some.mp h).1 h
  | resetPid thread =>
    obtain ⟨hplace,ht⟩ := Option.ite_none_right_eq_some.mp h
    cases ht
    obtain ⟨hothers,haccepts⟩ := hs.at_place hplace rfl
    exact sound_goes hothers hs.numbered ⟨haccepts.only,haccepts.there⟩ (right_notes hs.right (.inl rfl))
  | status thread =>
    obtain ⟨hplace,ht⟩ := Option.ite_none_right_eq_some.mp h
    cases ht
    exact sound_goes (hok.1.others thread) hs.numbered ⟨hs.served hplace hok.1,hok.2⟩ hs.right
  | checkPid thread =>
    obtain ⟨hplace,ht⟩ := Option.ite_none_right_eq_some.mp h
    cases ht
    exact hs.checkPid hplace
  | childEnds pid =>
    obtain ⟨children,hexit,rfl⟩ := Option.map_eq_some_iff.mp h
    exact hs.childEnds hok hexit
  | forkP7ZipSession pid => exact hs.forkP7ZipSession h
  | waitReturns pid =>
    obtain ⟨children,hwait,rfl⟩ := Option.map_eq_some_iff.mp h
    exact hs.waitReturns hwait
  | otherBegins pid =>
    obtain ⟨_,ht⟩ := Option.ite_none_right_eq_some.mp h
    cases ht
    exact hs.others _
  | otherEnds pid =>
    cases h
    exact hs.others _

/-- In every run in which a request begins when no other is under way, a stop only while an acceptor has
been started and not been stopped, and a status when no acceptor is still to end, and in which an acceptor
only ends when it has been stopped, every response is right and every signal goes to a live acceptor. -/
theorem management_right (h : Reachable step Orderly start s) : ∀ e ∈ s.log, e.Right :=
  (h.invariant sound_start fun _ _ _ hs hok hstep => sound_step hs hok hstep).right

instance (s : Management n) (act : ManagementAct n) : Decidable (s.Orderly act) := by
  unfold Orderly Quiet
  cases act <;> infer_instance

/-- One client starts, another one asks and stops, and asks again when the acceptor has ended. -/
theorem management_right_two : ∃ s : Management 2, Reachable step Orderly start s ∧
    s.log = [.status false [RESPONSE_OK,RESPONSE_ERROR],.stopped [RESPONSE_OK],
      .signalled (.child ⟨10,.acceptor 1 false,true⟩),.status true [RESPONSE_OK,RESPONSE_OK]] ∧
    ∀ e ∈ s.log, e.Right := by
  obtain ⟨s,hs,hp⟩ := @exists_reachable _ _ step Orderly (start : Management 2) _
    (fun s => s.log = [.status false [RESPONSE_OK,RESPONSE_ERROR],.stopped [RESPONSE_OK],
      .signalled (.child ⟨10,.acceptor 1 false,true⟩),.status true [RESPONSE_OK,RESPONSE_OK]])
    [.getServerSocket 0,.fork 0 10,.storePid 0,.status 1,.checkPid 1,.stop 1,.kill 1,.resetPid 1,
      .childEnds 10,.status 1,.checkPid 1] (by decide +kernel)
  simp only [decide_eq_true_eq] at hp
  exact ⟨s,hs,hp,management_right hs⟩

/-- Without a start a stop gets no response. When the acceptor has ended by itself the status is wrong,
and a stop signals a process that is no acceptor. -/
theorem management_wrong :
    (∃ s : Management 1, Reachable step (fun _ _ => True) start s ∧ .stopped [] ∈ s.log) ∧
    (∃ s : Management 2, Reachable step (fun _ _ => True) start s ∧
      .status false [RESPONSE_OK,RESPONSE_OK] ∈ s.log) ∧
    (∃ s : Management 2, Reachable step (fun _ _ => True) start s ∧
      .signalled (.otherProcess 10) ∈ s.log) := by
  refine ⟨?_,?_,?_⟩
  · obtain ⟨s,hs,hp⟩ := @exists_reachable _ _ step (fun _ _ => True) (start : Management 1) _
      (fun s => .stopped [] ∈ s.log) [.stop 0] (by decide +kernel)
    exact ⟨s,hs,by simpa using hp⟩
  · obtain ⟨s,hs,hp⟩ := @exists_reachable _ _ step (fun _ _ => True) (start : Management 2) _
      (fun s => .status false [RESPONSE_OK,RESPONSE_OK] ∈ s.log)
      [.getServerSocket 0,.fork 0 10,.storePid 0,.childEnds 10,.status 1,.checkPid 1]
      (by decide +kernel)
    exact ⟨s,hs,by simpa using hp⟩
  · obtain ⟨s,hs,hp⟩ := @exists_reachable _ _ step (fun _ _ => True) (start : Management 2) _
      (fun s => .signalled (.otherProcess 10) ∈ s.log)
      [.getServerSocket 0,.fork 0 10,.storePid 0,.childEnds 10,.forkP7ZipSession 11,.childEnds 11,
        .waitReturns 10,.otherBegins 10,.stop 1,.kill 1] (by decide +kernel)
    exact ⟨s,hs,by simpa using hp⟩

end Management
end RootHelper
