import Mathlib.Logic.Function.Basic
import RootHelper.Control.Systems

/-!
The numbers of descriptors between the sessions of local clients. A session has the number of its client's
descriptor in objects that do not know of each other, and each of them may close it; a number that has been
closed is given to whoever asks for one next.
-/

set_option autoImplicit false

namespace RootHelper
open Control

/-- What an open number stands for. -/
inductive OpenDescriptor (n : Nat) where
  | client (thread : Fin n)
  | file (thread : Fin n)
  deriving DecidableEq, Repr

/-- A read, a write or a `close`; `late` when the thread has closed the number itself before and not got
it again. -/
structure DescriptorUse (n : Nat) where
  thread : Fin n
  number : Nat
  what : Option (OpenDescriptor n)
  late : Bool
  deriving DecidableEq, Repr

/-- Where the thread of a session is. -/
inductive SessionPlace where
  | unborn
  /-- Before the next request. -/
  | serving
  /-- In `copyFileOrDirectoryFullNew`: reading the list of pairs, and copying. -/
  | copyRequest
  | copying
  /-- In `findNamesAndContent`: without a search, with one, and at the handler for its exceptions. -/
  | finding
  | searching
  | recovering
  /-- In any other handler. -/
  | handling
  /-- Before the `close` at the end of `clientSession`. -/
  | exiting
  | ended
  deriving DecidableEq, Repr

structure Sessions (n : Nat) where
  table : Nat → Option (OpenDescriptor n)
  desc : Fin n → Nat
  place : Fin n → SessionPlace
  /-- The numbers of the files that a handler has open. -/
  files : Fin n → List Nat
  /-- The number that is noted of the active search. -/
  currentSearchInOutDesc : Option Nat
  /-- What a thread has closed itself and not got again. -/
  closed : Fin n → List Nat
  log : List (DescriptorUse n)

inductive SessionAct (n : Nat) where
  | accept (thread : Fin n) (number : Nat)
  /-- A request of one of the kinds, which is given by its place. -/
  | readRequest (thread : Fin n) (place : SessionPlace)
  | requestFails (thread : Fin n)
  /-- A read or a write in a handler. -/
  | io (thread : Fin n)
  /-- In `readAllOrExit` or `writeAllOrExit`. -/
  | ioFails (thread : Fin n)
  /-- A listing that cannot be sent is closed, and its handler returns. -/
  | listingFails (thread : Fin n)
  | openFile (thread : Fin n) (number : Nat)
  | closeFile (thread : Fin n) (number : Nat)
  | returns (thread : Fin n)
  /-- `threadExit` without a `close`, and behind one. -/
  | threadExit (thread : Fin n)
  | closesAndExits (thread : Fin n)
  | maincopy (thread : Fin n)
  /-- Also when the client cancels the copy. -/
  | copyEnds (thread : Fin n)
  | registerSearch (thread : Fin n)
  | cancelSearch (thread : Fin n)
  | searchEnds (thread : Fin n)
  | recovers (thread : Fin n)
  | exits (thread : Fin n)
  deriving DecidableEq, Repr

namespace SessionPlace

def handles : SessionPlace → Bool
  | copyRequest | copying | finding | searching | handling => true
  | _ => false

def begins : SessionPlace → Bool
  | copyRequest | finding | handling => true
  | _ => false

def lives : SessionPlace → Bool
  | unborn | ended => false
  | _ => true

/-- Where a thread is when an exception has left the handler. -/
def thrown : SessionPlace → SessionPlace
  | finding | searching => recovering
  | _ => exiting

end SessionPlace

namespace Sessions

variable {n : Nat}

def start : Sessions n := ⟨fun _ => none,fun _ => 0,fun _ => .unborn,fun _ => [],none,fun _ => [],[]⟩

def goes (s : Sessions n) (thread : Fin n) (place : SessionPlace) : Sessions n :=
  { s with place := Function.update s.place thread place }

/-- A handler is left, and with it the numbers of the files it has open. -/
def leaves (s : Sessions n) (thread : Fin n) (place : SessionPlace) : Sessions n :=
  { s with files := Function.update s.files thread [] }.goes thread place

def uses (s : Sessions n) (thread : Fin n) (number : Nat) : Sessions n :=
  { s with log := ⟨thread,number,s.table number,number ∈ s.closed thread⟩ :: s.log }

def close (s : Sessions n) (thread : Fin n) (number : Nat) : Sessions n :=
  let t := s.uses thread number
  { t with
    table := Function.update t.table number none
    closed := Function.update t.closed thread (number :: t.closed thread) }

def gets (s : Sessions n) (thread : Fin n) (number : Nat) (what : OpenDescriptor n) : Sessions n :=
  { s with
    table := Function.update s.table number (some what)
    closed := Function.update s.closed thread ((s.closed thread).filter fun m => m ≠ number) }

def closeOwn (s : Sessions n) (thread : Fin n) : Sessions n := s.close thread (s.desc thread)

/-- A read or a write that comes up short, and the `close` behind it. -/
def fails (s : Sessions n) (thread : Fin n) : Sessions n :=
  (s.uses thread (s.desc thread)).closeOwn thread

def on_find_thread_exit_function (s : Sessions n) (thread : Fin n) : Sessions n :=
  match s.currentSearchInOutDesc with
  | some number => { s.close thread number with currentSearchInOutDesc := none }
  | none => s

def step : SessionAct n → Sessions n → Option (Sessions n)
  | .accept thread number, s =>
    if s.place thread = .unborn ∧ s.table number = none then
      some ({ s.gets thread number (.client thread) with
        desc := Function.update s.desc thread number }.leaves thread .serving)
    else none
  | .readRequest thread place, s =>
    if s.place thread = .serving ∧ (s.table (s.desc thread)).isSome ∧ place.begins then
      some ((s.uses thread (s.desc thread)).goes thread place)
    else none
  | .requestFails thread, s =>
    if s.place thread = .serving then some ((s.fails thread).goes thread .exiting) else none
  | .io thread, s =>
    if (s.place thread).handles ∧ (s.table (s.desc thread)).isSome then
      some (s.uses thread (s.desc thread))
    else none
  | .ioFails thread, s =>
    if s.place thread = .copying then
      -- `maincopy` catches the exception and closes the descriptor again
      some (((s.fails thread).closeOwn thread).leaves thread .serving)
    else if (s.place thread).handles then
      some ((s.fails thread).leaves thread (s.place thread).thrown)
    else none
  | .listingFails thread, s =>
    if s.place thread = .handling then some ((s.fails thread).leaves thread .serving) else none
  | .openFile thread number, s =>
    if (s.place thread).handles ∧ s.table number = none then
      let t := s.gets thread number (.file thread)
      some { t with files := Function.update t.files thread (number :: t.files thread) }
    else none
  | .closeFile thread number, s =>
    if number ∈ s.files thread then
      let t := s.close thread number
      some { t with files := Function.update t.files thread ((t.files thread).filter fun m => m ≠ number) }
    else none
  | .returns thread, s =>
    -- also a copy whose source is not there any more
    if (s.place thread).handles ∧ s.place thread ≠ .searching then some (s.leaves thread .serving)
    else none
  | .threadExit thread, s =>
    if s.place thread = .searching ∨ s.place thread = .handling then
      some (s.leaves thread (s.place thread).thrown)
    else none
  | .closesAndExits thread, s =>
    if s.place thread = .handling then some ((s.closeOwn thread).leaves thread .exiting) else none
  | .maincopy thread, s =>
    if s.place thread = .copyRequest then some (s.goes thread .copying) else none
  | .copyEnds thread, s =>
    if s.place thread = .copying then some ((s.closeOwn thread).leaves thread .serving) else none
  | .registerSearch thread, s =>
    if s.place thread = .finding ∧ s.currentSearchInOutDesc = none then
      some ({ s with currentSearchInOutDesc := some (s.desc thread) }.goes thread .searching)
    else none
  | .cancelSearch thread, s =>
    if s.place thread = .finding then
      some ((s.on_find_thread_exit_function thread).leaves thread .finding)
    else none
  | .searchEnds thread, s =>
    if s.place thread = .searching then
      some ((s.on_find_thread_exit_function thread).leaves thread .serving)
    else none
  | .recovers thread, s =>
    if s.place thread = .recovering then
      some ((s.on_find_thread_exit_function thread).leaves thread .exiting)
    else none
  | .exits thread, s =>
    if s.place thread = .exiting then some ((s.closeOwn thread).leaves thread .ended) else none

variable {s t : Sessions n}

/-- Only the end of a session closes its descriptor: neither a handler does, nor the end of a search,
which closes what is noted of it, whoever's it is. -/
def ClosedLast (s : Sessions n) : SessionAct n → Prop
  | .requestFails _ | .ioFails _ | .listingFails _ | .closesAndExits _ | .copyEnds _ => False
  | .cancelSearch _ | .searchEnds _ | .recovers _ => s.currentSearchInOutDesc = none
  | _ => True

/-- A number is in the table for the thread that uses it, and has not been closed by it. -/
structure Owned (s : Sessions n) : Prop where
  own : ∀ thread, (s.place thread).lives = true → s.table (s.desc thread) = some (.client thread)
  files : ∀ thread, ∀ f ∈ s.files thread, s.table f = some (.file thread)
  closed : ∀ thread, ∀ number ∈ s.closed thread,
    s.table number ≠ some (.client thread) ∧ s.table number ≠ some (.file thread)
  used : ∀ u ∈ s.log, u.late = false ∧
    (u.what = some (.client u.thread) ∨ u.what = some (.file u.thread))

theorem owned_start : (start : Sessions n).Owned where
  own _ h := by cases h
  files _ _ h := by cases h
  closed _ _ h := by cases h
  used _ h := by cases h

@[simp] theorem leaves_place_self (thread : Fin n) (place : SessionPlace) :
    (s.leaves thread place).place thread = place := by
  simp [leaves,goes]

theorem leaves_place_of_ne {thread thread' : Fin n} (place : SessionPlace) (h : thread' ≠ thread) :
    (s.leaves thread place).place thread' = s.place thread' := by
  simp [leaves,goes,h]

@[simp] theorem leaves_files_self (thread : Fin n) (place : SessionPlace) :
    (s.leaves thread place).files thread = [] := by
  simp [leaves,goes]

theorem leaves_files_of_ne {thread thread' : Fin n} (place : SessionPlace) (h : thread' ≠ thread) :
    (s.leaves thread place).files thread' = s.files thread' := by
  simp [leaves,goes,h]

theorem goes_place_of_ne {thread thread' : Fin n} (place : SessionPlace) (h : thread' ≠ thread) :
    (s.goes thread place).place thread' = s.place thread' := by
  simp [goes,h]

theorem lives_of_handles {place : SessionPlace} (h : place.handles = true) : place.lives = true := by
  cases place <;> first | rfl | cases h

section Steps

variable {thread : Fin n} {number : Nat} {place : SessionPlace}

theorem Owned.keep (hs : s.Owned) (htable : t.table = s.table) (hclosed : t.closed = s.closed)
    (hdesc : t.desc = s.desc) (hlog : t.log = s.log)
    (hplace : ∀ thread, (t.place thread).lives = true → (s.place thread).lives = true)
    (hfiles : ∀ thread, ∀ f ∈ t.files thread, f ∈ s.files thread) : t.Owned where
  own thread hlives := by
    rw [htable,hdesc]
    exact hs.own thread (hplace thread hlives)
  files thread f hf := by
    rw [htable]
    exact hs.files thread f (hfiles thread f hf)
  closed thread number hnumber := by
    rw [hclosed] at hnumber
    rw [htable]
    exact hs.closed thread number hnumber
  used := by
    rw [hlog]
    exact hs.used

theorem Owned.leaves (hs : s.Owned)
    (hplace : place.lives = true → (s.place thread).lives = true) : (s.leaves thread place).Owned := by
  refine hs.keep rfl rfl rfl rfl (fun thread' hlives => ?_) fun thread' f hf => ?_
  · by_cases heq : thread' = thread
    · rw [heq,leaves_place_self] at hlives
      rw [heq]
      exact hplace hlives
    · rwa [leaves_place_of_ne place heq] at hlives
  · by_cases heq : thread' = thread
    · rw [heq,leaves_files_self] at hf
      cases hf
    · rwa [leaves_files_of_ne place heq] at hf

theorem Owned.goes (hs : s.Owned)
    (hplace : place.lives = true → (s.place thread).lives = true) : (s.goes thread place).Owned := by
  refine hs.keep rfl rfl rfl rfl (fun thread' hlives => ?_) fun _ _ hf => hf
  by_cases heq : thread' = thread
  · rw [heq] at hlives ⊢
    simp only [Sessions.goes,Function.update_self] at hlives
    exact hplace hlives
  · rwa [goes_place_of_ne place heq] at hlives

theorem Owned.uses (hs : s.Owned)
    (hwhat : s.table number = some (.client thread) ∨ s.table number = some (.file thread)) :
    (s.uses thread number).Owned := by
  refine ⟨hs.own,hs.files,hs.closed,fun u hu => ?_⟩
  rcases List.mem_cons.mp hu with rfl | hu
  · refine ⟨decide_eq_false fun hclosed => ?_,hwhat⟩
    obtain ⟨hclient,hfile⟩ := hs.closed thread number hclosed
    exact hwhat.elim hclient hfile
  · exact hs.used u hu

/-- What nobody else may use is closed, and given up. -/
theorem Owned.close (hs : s.Owned)
    (hwhat : s.table number = some (.client thread) ∨ s.table number = some (.file thread))
    (htable : t.table = (s.close thread number).table)
    (hclosed : t.closed = (s.close thread number).closed)
    (hlog : t.log = (s.close thread number).log) (hdesc : t.desc = s.desc)
    (hplace : ∀ thread', (t.place thread').lives = true →
      (s.place thread').lives = true ∧ s.desc thread' ≠ number)
    (hfiles : ∀ thread', ∀ f ∈ t.files thread', f ∈ s.files thread' ∧ f ≠ number) : t.Owned where
  own thread' hlives := by
    obtain ⟨hlived,hne⟩ := hplace thread' hlives
    rw [htable,hdesc]
    simpa [Sessions.close,Sessions.uses,hne] using hs.own thread' hlived
  files thread' f hf := by
    obtain ⟨hf,hne⟩ := hfiles thread' f hf
    rw [htable]
    simpa [Sessions.close,Sessions.uses,hne] using hs.files thread' f hf
  closed thread' m hm := by
    rw [hclosed] at hm
    rw [htable]
    by_cases heq : m = number
    · simp [Sessions.close,Sessions.uses,heq]
    · have hold : m ∈ s.closed thread' := by
        by_cases hthread : thread' = thread
        · subst hthread
          simpa [Sessions.close,Sessions.uses,heq] using hm
        · simpa [Sessions.close,Sessions.uses,hthread] using hm
      simpa [Sessions.close,Sessions.uses,heq] using hs.closed thread' m hold
  used := by
    rw [hlog]
    exact (hs.uses hwhat).used

theorem Owned.gets {what : OpenDescriptor n} (hs : s.Owned) (hfree : s.table number = none)
    (hwhat : what = .client thread ∨ what = .file thread) : (s.gets thread number what).Owned where
  own thread' hlives := by
    have hown := hs.own thread' hlives
    have hne : s.desc thread' ≠ number := by
      rintro rfl
      simp [hfree] at hown
    simpa [Sessions.gets,hne] using hown
  files thread' f hf := by
    have hopen := hs.files thread' f hf
    have hne : f ≠ number := by
      rintro rfl
      simp [hfree] at hopen
    simpa [Sessions.gets,hne] using hopen
  closed thread' m hm := by
    by_cases hthread : thread' = thread
    · subst hthread
      have hm : m ∈ s.closed thread' ∧ m ≠ number := by simpa [Sessions.gets] using hm
      simpa [Sessions.gets,hm.2] using hs.closed thread' m hm.1
    · have hm : m ∈ s.closed thread' := by simpa [Sessions.gets,hthread] using hm
      by_cases heq : m = number
      · subst heq
        rcases hwhat with rfl | rfl <;> simp [Sessions.gets,Ne.symm hthread]
      · simpa [Sessions.gets,heq] using hs.closed thread' m hm
  used := hs.used

theorem Owned.accept (hs : s.Owned) (hfree : s.table number = none) :
    ({ s.gets thread number (.client thread) with
      desc := Function.update s.desc thread number }.leaves thread .serving).Owned := by
  have hgets : (s.gets thread number (.client thread)).Owned := hs.gets hfree (.inl rfl)
  refine ⟨fun thread' hlives => ?_,fun thread' f hf => ?_,hgets.closed,hgets.used⟩
  · by_cases heq : thread' = thread
    · subst heq
      simp [Sessions.leaves,Sessions.goes,Sessions.gets]
    · rw [leaves_place_of_ne _ heq] at hlives
      have hown := hgets.own thread' hlives
      simp only [Sessions.leaves,Sessions.goes,Function.update_of_ne heq]
      exact hown
  · by_cases heq : thread' = thread
    · rw [heq,leaves_files_self] at hf
      cases hf
    · rw [leaves_files_of_ne _ heq] at hf
      exact hgets.files thread' f hf

theorem Owned.openFile (hs : s.Owned) (hfree : s.table number = none) :
    ({ s.gets thread number (.file thread) with
      files := Function.update s.files thread (number :: s.files thread) } : Sessions n).Owned := by
  have hgets : (s.gets thread number (.file thread)).Owned := hs.gets hfree (.inr rfl)
  refine ⟨hgets.own,fun thread' f hf => ?_,hgets.closed,hgets.used⟩
  by_cases heq : thread' = thread
  · subst heq
    simp only [Function.update_self,List.mem_cons] at hf
    rcases hf with rfl | hf
    · simp [Sessions.gets]
    · exact hgets.files thread' f hf
  · simp only [Function.update_of_ne heq] at hf
    exact hgets.files thread' f hf

theorem Owned.closeFile (hs : s.Owned) (hmem : number ∈ s.files thread) :
    ({ s.close thread number with
      files := Function.update (s.close thread number).files thread
        (((s.close thread number).files thread).filter fun m => m ≠ number) } : Sessions n).Owned := by
  have hopen := hs.files thread number hmem
  refine hs.close (.inr hopen) rfl rfl rfl rfl (fun thread' hlives => ⟨hlives,?_⟩)
    fun thread' f hf => ?_
  · rintro rfl
    simp [hs.own thread' hlives] at hopen
  · by_cases heq : thread' = thread
    · subst heq
      simpa [Sessions.close,Sessions.uses] using hf
    · have hkept : f ∈ s.files thread' := by simpa [Sessions.close,Sessions.uses,heq] using hf
      refine ⟨hkept,fun hsame => heq ?_⟩
      have hboth := (hs.files thread' f hkept).symm.trans (hsame ▸ hopen)
      simpa using hboth

theorem Owned.exits (hs : s.Owned) (hplace : s.place thread = .exiting) :
    ((s.closeOwn thread).leaves thread .ended).Owned := by
  have hown := hs.own thread (by rw [hplace]; rfl)
  refine hs.close (.inl hown) rfl rfl rfl rfl (fun thread' hlives => ?_) fun thread' f hf => ?_
  · by_cases heq : thread' = thread
    · rw [heq,leaves_place_self] at hlives
      cases hlives
    · rw [leaves_place_of_ne _ heq] at hlives
      refine ⟨hlives,fun hsame => heq ?_⟩
      have hboth := (hsame ▸ hs.own thread' hlives).symm.trans hown
      simpa using hboth
  · by_cases heq : thread' = thread
    · rw [heq,leaves_files_self] at hf
      cases hf
    · rw [leaves_files_of_ne _ heq] at hf
      refine ⟨hf,?_⟩
      rintro rfl
      simp [hs.files thread' _ hf] at hown

theorem Owned.reset (hs : s.Owned) (hlives : (s.place thread).lives = true)
    (hnone : s.currentSearchInOutDesc = none) :
    ((s.on_find_thread_exit_function thread).leaves thread place).Owned := by
  rw [on_find_thread_exit_function,hnone]
  exact hs.leaves fun _ => hlives

end Steps

theorem owned_step {act : SessionAct n} (hs : s.Owned) (hok : s.ClosedLast act)
    (h : step act s = some t) : t.Owned := by
  cases act with
  | accept thread number =>
    obtain ⟨⟨_,hfree⟩,ht⟩ := Option.ite_none_right_eq_some.mp h
    obtain rfl := Option.some.inj ht
    exact hs.accept hfree
  | readRequest thread place =>
    obtain ⟨⟨hplace,_⟩,ht⟩ := Option.ite_none_right_eq_some.mp h
    obtain rfl := Option.some.inj ht
    have hlives : (s.place thread).lives = true := by rw [hplace]; rfl
    exact (hs.uses (.inl (hs.own thread hlives))).goes fun _ => hlives
  | requestFails thread => exact hok.elim
  | io thread =>
    obtain ⟨⟨hplace,_⟩,ht⟩ := Option.ite_none_right_eq_some.mp h
    obtain rfl := Option.some.inj ht
    exact hs.uses (.inl (hs.own thread (lives_of_handles hplace)))
  | ioFails thread => exact hok.elim
  | listingFails thread => exact hok.elim
  | openFile thread number =>
    obtain ⟨⟨_,hfree⟩,ht⟩ := Option.ite_none_right_eq_some.mp h
    obtain rfl := Option.some.inj ht
    exact hs.openFile hfree
  | closeFile thread number =>
    obtain ⟨hmem,ht⟩ := Option.ite_none_right_eq_some.mp h
    obtain rfl := Option.some.inj ht
    exact hs.closeFile hmem
  | returns thread =>
    obtain ⟨⟨hplace,_⟩,ht⟩ := Option.ite_none_right_eq_some.mp h
    obtain rfl := Option.some.inj ht
    exact hs.leaves fun _ => lives_of_handles hplace
  | threadExit thread =>
    obtain ⟨hplace,ht⟩ := Option.ite_none_right_eq_some.mp h
    obtain rfl := Option.some.inj ht
    refine hs.leaves fun _ => ?_
    rcases hplace with hplace | hplace <;> rw [hplace] <;> rfl
  | closesAndExits thread => exact hok.elim
  | maincopy thread =>
    obtain ⟨hplace,ht⟩ := Option.ite_none_right_eq_some.mp h
    obtain rfl := Option.some.inj ht
    exact hs.goes fun _ => by rw [hplace]; rfl
  | copyEnds thread => exact hok.elim
  | registerSearch thread =>
    obtain ⟨⟨hplace,_⟩,ht⟩ := Option.ite_none_right_eq_some.mp h
    obtain rfl := Option.some.inj ht
    have hsame : ({ s with currentSearchInOutDesc := some (s.desc thread) } : Sessions n).Owned :=
      hs.keep rfl rfl rfl rfl (fun _ h => h) fun _ _ h => h
    exact hsame.goes fun _ => by change (s.place thread).lives = true; rw [hplace]; rfl
  | cancelSearch thread =>
    obtain ⟨hplace,ht⟩ := Option.ite_none_right_eq_some.mp h
    obtain rfl := Option.some.inj ht
    exact hs.reset (by rw [hplace]; rfl) hok
  | searchEnds thread =>
    obtain ⟨hplace,ht⟩ := Option.ite_none_right_eq_some.mp h
    obtain rfl := Option.some.inj ht
    exact hs.reset (by rw [hplace]; rfl) hok
  | recovers thread =>
    obtain ⟨hplace,ht⟩ := Option.ite_none_right_eq_some.mp h
    obtain rfl := Option.some.inj ht
    exact hs.reset (by rw [hplace]; rfl) hok
  | exits thread =>
    obtain ⟨hplace,ht⟩ := Option.ite_none_right_eq_some.mp h
    obtain rfl := Option.some.inj ht
    exact hs.exits hplace

/-- In every run in which only the end of a session closes its descriptor, no thread uses a number that it
has closed itself, and each number it uses is that of its own client or of a file it has opened. -/
theorem descriptors_inTime (h : Reachable step ClosedLast start s) : ∀ u ∈ s.log, u.late = false ∧
    (u.what = some (.client u.thread) ∨ u.what = some (.file u.thread)) :=
  (h.invariant owned_start fun _ _ _ hs hok hstep => owned_step hs hok hstep).used

instance (s : Sessions n) (act : SessionAct n) : Decidable (s.ClosedLast act) := by
  unfold ClosedLast
  cases act <;> infer_instance

/-- A session ends while another one searches; its number and that of a file it had open are given to
the next client's session. -/
theorem descriptors_inTime_reused : ∃ s : Sessions 3, Reachable step ClosedLast start s ∧
    s.place 0 = .ended ∧ s.place 1 = .searching ∧ s.table 5 = some (.client 2) ∧
    s.table 7 = some (.file 2) ∧ s.log.length = 12 ∧
    ∀ u ∈ s.log, u.late = false ∧
      (u.what = some (.client u.thread) ∨ u.what = some (.file u.thread)) := by
  obtain ⟨s,hs,hp⟩ := @exists_reachable _ _ step ClosedLast (start : Sessions 3) _
    (fun s => s.place 0 = .ended ∧ s.place 1 = .searching ∧ s.table 5 = some (.client 2) ∧
      s.table 7 = some (.file 2) ∧ s.log.length = 12)
    [.accept 0 5,.accept 1 6,.readRequest 0 .handling,.openFile 0 7,.io 0,.readRequest 1 .finding,
      .cancelSearch 1,.returns 1,.readRequest 1 .finding,.registerSearch 1,.closeFile 0 7,.openFile 1 7,
      .io 0,.threadExit 0,.exits 0,.accept 2 5,.closeFile 1 7,.readRequest 2 .handling,.openFile 2 7,
      .io 2,.io 1,.io 2] (by decide +kernel)
  simp only [decide_eq_true_eq] at hp
  obtain ⟨h0,h1,h5,h7,hlen⟩ := hp
  exact ⟨s,hs,h0,h1,h5,h7,hlen,descriptors_inTime hs⟩

/-- After a copy the session reads the next client's request, and at its end it closes that client's
descriptor; a session whose client has gone closes twice. -/
theorem descriptors_late :
    (∃ s : Sessions 2, Reachable step (fun _ _ => True) start s ∧
      ⟨0,5,some (.client 1),true⟩ ∈ s.log ∧ s.place 0 = .ended ∧ s.place 1 = .serving ∧
      s.table 5 = none) ∧
    (∃ s : Sessions 2, Reachable step (fun _ _ => True) start s ∧
      s.log.map (·.late) = [true,false,false] ∧ s.place 1 = .serving ∧ s.table 5 = none) := by
  constructor
  · obtain ⟨s,hs,hp⟩ := @exists_reachable _ _ step (fun _ _ => True) (start : Sessions 2) _
      (fun s => ⟨0,5,some (.client 1),true⟩ ∈ s.log ∧ s.place 0 = .ended ∧ s.place 1 = .serving ∧
        s.table 5 = none)
      [.accept 0 5,.readRequest 0 .copyRequest,.maincopy 0,.io 0,.copyEnds 0,.accept 1 5,
        .readRequest 0 .handling,.threadExit 0,.exits 0] (by decide +kernel)
    exact ⟨s,hs,by simpa using hp⟩
  · obtain ⟨s,hs,hp⟩ := @exists_reachable _ _ step (fun _ _ => True) (start : Sessions 2) _
      (fun s => s.log.map (·.late) = [true,false,false] ∧ s.place 1 = .serving ∧ s.table 5 = none)
      [.accept 0 5,.requestFails 0,.accept 1 5,.exits 0] (by decide +kernel)
    exact ⟨s,hs,by simpa using hp⟩

end Sessions
end RootHelper
