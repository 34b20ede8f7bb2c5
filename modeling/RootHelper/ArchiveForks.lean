import Mathlib.Logic.Function.Basic
import RootHelper.Control.Systems
import RootHelper.Posix.Children

/-!
The forks of the helper between its threads. Each thread serves one local client; a compression or an
extraction is left to a child, which has the client's socket as well, and the thread waits. What it
waits for is any child of the process, an acceptor or another thread's too.
-/

set_option autoImplicit false

namespace RootHelper
open Posix Control

/-- What a child of the helper does: the session of a thread, or accepting remote clients. -/
inductive ForkTask where
  | p7ZipSession (thread : Nat)
  | serverAcceptor
  deriving DecidableEq, Repr

/-- Where a client's thread is. -/
inductive ClientPlace where
  | unborn
  /-- In the loop of `clientSession`, or in a handler that does not fork. -/
  | serving
  /-- In the `wait` of `forkP7ZipSession`. -/
  | waiting
  | ended
  deriving DecidableEq, Repr

structure Forks where
  children : List (Child ForkTask)
  place : Nat → ClientPlace

inductive ForkAct where
  | connects (thread : Nat)
  /-- `fork` in `forkP7ZipSession` gives a number. -/
  | forkP7ZipSession (thread pid : Nat)
  /-- It fails, which is answered. -/
  | forkFails (thread : Nat)
  /-- The thread ends when it has forked. -/
  | forkServerAcceptor (thread pid : Nat)
  /-- A child ends, also when it is killed. -/
  | childEnds (pid : Nat)
  | waitReturns (thread pid : Nat)
  /-- There is no child. -/
  | waitFails (thread : Nat)
  | disconnects (thread : Nat)
  deriving DecidableEq, Repr

namespace Forks

def start : Forks := ⟨[],fun _ => .unborn⟩

def moved (s : Forks) (thread : Nat) (place : ClientPlace) (children : List (Child ForkTask)) : Forks :=
  ⟨children,Function.update s.place thread place⟩

def step : ForkAct → Forks → Option Forks
  | .connects thread, s =>
    if s.place thread = .unborn then some (s.moved thread .serving s.children) else none
  | .forkP7ZipSession thread pid, s =>
    if s.place thread = .serving then
      (Child.fork s.children pid (.p7ZipSession thread)).map (s.moved thread .waiting)
    else none
  | .forkFails thread, s => if s.place thread = .serving then some s else none
  | .forkServerAcceptor thread pid, s =>
    if s.place thread = .serving then
      (Child.fork s.children pid .serverAcceptor).map (s.moved thread .ended)
    else none
  | .childEnds pid, s => (Child.exit s.children pid).map fun children => { s with children := children }
  | .waitReturns thread pid, s =>
    if s.place thread = .waiting then (Child.wait s.children pid).map (s.moved thread .serving)
    else none
  | .waitFails thread, s =>
    if s.place thread = .waiting ∧ s.children = [] then some (s.moved thread .serving [])
    else none
  | .disconnects thread, s =>
    if s.place thread = .serving then some (s.moved thread .ended s.children) else none

/-- A thread is only out of `forkP7ZipSession` when the child it has forked itself has come to its end;
so none uses its client's socket while its child does. -/
def Exclusive (s : Forks) : Prop :=
  ∀ thread, s.place thread ≠ .waiting →
    ∀ c ∈ s.children, c.task = .p7ZipSession thread → c.running = false

/-- A `wait` that returns does so for a child its own thread has forked. -/
def ReturnsOwn (s : Forks) : ForkAct → Prop
  | .waitReturns thread pid => ∀ c ∈ s.children, c.pid = pid → c.task = .p7ZipSession thread
  | _ => True

/-- A thread has no more than one child, and that only while it waits. -/
structure Owned (s : Forks) : Prop where
  one : ∀ thread, ∀ c ∈ s.children, ∀ c' ∈ s.children, c.task = .p7ZipSession thread →
    c'.task = .p7ZipSession thread → c.pid = c'.pid
  waits : ∀ thread, ∀ c ∈ s.children, c.task = .p7ZipSession thread → s.place thread = .waiting

theorem Owned.exclusive {s : Forks} (h : s.Owned) : s.Exclusive := fun thread hplace c hc htask =>
  absurd (h.waits thread c hc htask) hplace

theorem owned_start : start.Owned where
  one _ _ hc := by cases hc
  waits _ _ hc := by cases hc

theorem Owned.fewer {s t : Forks} (hs : s.Owned)
    (hchildren : ∀ c ∈ t.children, ∃ c₀ ∈ s.children, c.pid = c₀.pid ∧ c.task = c₀.task)
    (hplace : ∀ thread, s.place thread = .waiting → t.place thread = .waiting ∨
      ∀ c ∈ t.children, c.task ≠ .p7ZipSession thread) : t.Owned where
  one thread c hc c' hc' htask htask' := by
    obtain ⟨c₀,hc₀,hpid,hsame⟩ := hchildren c hc
    obtain ⟨c₀',hc₀',hpid',hsame'⟩ := hchildren c' hc'
    rw [hpid,hpid']
    exact hs.one thread c₀ hc₀ c₀' hc₀' (hsame ▸ htask) (hsame' ▸ htask')
  waits thread c hc htask := by
    obtain ⟨c₀,hc₀,_,hsame⟩ := hchildren c hc
    have hwaited := hs.waits thread c₀ hc₀ (hsame ▸ htask)
    exact (hplace thread hwaited).resolve_right fun hnone => hnone c hc htask

theorem moved_place_self {s : Forks} {thread : Nat} {place : ClientPlace}
    {children : List (Child ForkTask)} : (s.moved thread place children).place thread = place := by
  simp [moved]

theorem moved_place_of_ne {s : Forks} {thread thread' : Nat} {place : ClientPlace}
    {children : List (Child ForkTask)} (h : thread' ≠ thread) :
    (s.moved thread place children).place thread' = s.place thread' := by
  simp [moved,h]

theorem Owned.move {s : Forks} {thread : Nat} {place : ClientPlace} (hs : s.Owned)
    (hplace : s.place thread ≠ .waiting) : (s.moved thread place s.children).Owned := by
  refine hs.fewer (fun c hc => ⟨c,hc,rfl,rfl⟩) fun thread' hwaits => ?_
  have hne : thread' ≠ thread := fun heq => hplace (heq ▸ hwaits)
  exact .inl ((moved_place_of_ne hne).trans hwaits)

theorem Owned.fork {s : Forks} {thread pid : Nat} {task : ForkTask} {place : ClientPlace}
    {children : List (Child ForkTask)} (hs : s.Owned) (hplace : s.place thread ≠ .waiting)
    (hfork : Child.fork s.children pid task = some children)
    (htask : ∀ thread', task = .p7ZipSession thread' → thread' = thread ∧ place = .waiting) :
    (s.moved thread place children).Owned where
  one thread' c hc c' hc' hown hown' := by
    have hold : ∀ c ∈ s.children, c.task = .p7ZipSession thread' → thread' ≠ thread :=
      fun c hc hown heq => hplace (heq ▸ hs.waits thread' c hc hown)
    rcases Child.mem_of_fork hfork hc with rfl | hc
    · rcases Child.mem_of_fork hfork hc' with rfl | hc'
      · rfl
      · exact absurd (htask thread' hown).1 (hold c' hc' hown')
    · rcases Child.mem_of_fork hfork hc' with rfl | hc'
      · exact absurd (htask thread' hown').1 (hold c hc hown)
      · exact hs.one thread' c hc c' hc' hown hown'
  waits thread' c hc hown := by
    rcases Child.mem_of_fork hfork hc with rfl | hc
    · obtain ⟨rfl,hwaits⟩ := htask thread' hown
      rw [moved_place_self,hwaits]
    · have hwaits := hs.waits thread' c hc hown
      have hne : thread' ≠ thread := fun heq => hplace (heq ▸ hwaits)
      rw [moved_place_of_ne hne,hwaits]

theorem owned_step {s t : Forks} {act : ForkAct} (hs : s.Owned) (hok : s.ReturnsOwn act)
    (h : step act s = some t) : t.Owned := by
  cases act with
  | connects thread =>
    obtain ⟨hplace,ht⟩ := Option.ite_none_right_eq_some.mp h
    obtain rfl := Option.some.inj ht
    exact hs.move (by rw [hplace]; decide)
  | forkP7ZipSession thread pid =>
    obtain ⟨hplace,ht⟩ := Option.ite_none_right_eq_some.mp h
    obtain ⟨children,hfork,rfl⟩ := Option.map_eq_some_iff.mp ht
    refine hs.fork (by rw [hplace]; decide) hfork fun thread' htask => ?_
    exact ⟨(ForkTask.p7ZipSession.inj htask).symm,rfl⟩
  | forkFails thread =>
    obtain ⟨_,ht⟩ := Option.ite_none_right_eq_some.mp h
    obtain rfl := Option.some.inj ht
    exact hs
  | forkServerAcceptor thread pid =>
    obtain ⟨hplace,ht⟩ := Option.ite_none_right_eq_some.mp h
    obtain ⟨children,hfork,rfl⟩ := Option.map_eq_some_iff.mp ht
    exact hs.fork (by rw [hplace]; decide) hfork fun thread' htask => by cases htask
  | childEnds pid =>
    obtain ⟨children,hexit,rfl⟩ := Option.map_eq_some_iff.mp h
    refine hs.fewer (fun c hc => ?_) fun _ hwaits => .inl hwaits
    obtain ⟨c₀,hc₀,hpid,htask,_⟩ := Child.mem_of_exit hexit hc
    exact ⟨c₀,hc₀,hpid,htask⟩
  | waitReturns thread pid =>
    obtain ⟨_,ht⟩ := Option.ite_none_right_eq_some.mp h
    obtain ⟨children,hwait,rfl⟩ := Option.map_eq_some_iff.mp ht
    refine hs.fewer (fun c hc => ⟨c,(Child.mem_of_wait hwait hc).1,rfl,rfl⟩) fun thread' hwaits => ?_
    by_cases heq : thread' = thread
    · right
      intro c hc htask
      -- the thread's only child is the one that `wait` has taken away
      obtain ⟨c₀,hc₀,hpid,_⟩ := (Child.wait_eq_some.mp hwait).1
      have hown := hok c₀ hc₀ hpid
      obtain ⟨hmem,hgone⟩ := Child.mem_of_wait hwait hc
      exact hgone ((hs.one thread c hmem c₀ hc₀ (heq ▸ htask) hown).trans hpid)
    · exact .inl ((moved_place_of_ne heq).trans hwaits)
  | waitFails thread =>
    obtain ⟨hnone,ht⟩ := Option.ite_none_right_eq_some.mp h
    obtain rfl := Option.some.inj ht
    exact hs.fewer (fun c hc => by cases hc) fun _ _ => .inr fun c hc => by cases hc
  | disconnects thread =>
    obtain ⟨hplace,ht⟩ := Option.ite_none_right_eq_some.mp h
    obtain rfl := Option.some.inj ht
    exact hs.move (by rw [hplace]; decide)

/-- In every run in which `wait` only returns for a thread's own child, the helper and a child never use
the same client's socket. -/
theorem forks_exclusive {s : Forks} (h : Reachable step ReturnsOwn start s) : s.Exclusive :=
  (h.invariant owned_start fun _ _ _ hs hok hstep => owned_step hs hok hstep).exclusive

instance (s : Forks) (act : ForkAct) : Decidable (s.ReturnsOwn act) := by
  unfold ReturnsOwn
  cases act <;> infer_instance

/-- Two compressions that end one after the other. -/
theorem forks_exclusive_two : ∃ s, Reachable step ReturnsOwn start s ∧
    s.place 1 = .serving ∧ s.place 2 = .waiting ∧ s.Exclusive := by
  obtain ⟨s,hs,hp⟩ := @exists_reachable _ _ step ReturnsOwn start _
    (fun s => s.place 1 = .serving ∧ s.place 2 = .waiting)
    [.connects 1,.connects 2,.forkP7ZipSession 1 10,.forkP7ZipSession 2 11,.childEnds 10,
      .waitReturns 1 10] (by decide)
  simp only [decide_eq_true_eq] at hp
  exact ⟨s,hs,hp.1,hp.2,forks_exclusive hs⟩

/-- The thread of the first compression goes on when the second one has ended. -/
theorem forks_shared : ¬ ∀ s, Reachable step (fun _ _ => True) start s → s.Exclusive := by
  intro hall
  obtain ⟨s,hs,hp⟩ := @exists_reachable _ _ step (fun _ _ => True) start _
    (fun s => s.place 1 = .serving ∧ ⟨10,.p7ZipSession 1,true⟩ ∈ s.children)
    [.connects 1,.connects 2,.forkP7ZipSession 1 10,.forkP7ZipSession 2 11,.childEnds 11,
      .waitReturns 1 11] (by decide)
  simp only [decide_eq_true_eq] at hp
  have hserving : s.place 1 ≠ .waiting := by rw [hp.1]; decide
  exact absurd (hall s hs 1 hserving _ hp.2 rfl) (by decide)

end Forks
end RootHelper
