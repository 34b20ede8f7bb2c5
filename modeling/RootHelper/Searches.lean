import Mathlib.Logic.Function.Basic
import RootHelper.Control.Systems

/-!
Searches between the threads of the clients. What the helper knows of the running search is the descriptor
that was noted when it was registered; a cancel, the end of a search and the end of a thread that serves
such a request all close and forget what is noted. Closing a descriptor frees its number, which the next
client may get.
-/

set_option autoImplicit false

namespace RootHelper
open Control

/-- What `currentSearchInOutDesc` points to: the descriptor of the search of a thread. -/
structure SearchDesc (n : Nat) where
  search : Nat
  thread : Fin n
  desc : Nat
  deriving DecidableEq, Repr

/-- Where the thread of a client is. -/
inductive SearchPlace where
  | unborn
  | serving
  /-- Before the answer that a search is already active. -/
  | refused
  /-- Before the OK. -/
  | registered (search : Nat)
  /-- Before the next check, or the end of the list. -/
  | looping (search : Nat)
  /-- With an entry; `late` when the search had been cancelled before the check. -/
  | checked (search : Nat) (late : Bool)
  /-- The end of the list has been sent. -/
  | finished (search : Nat)
  /-- At the handler for exceptions in `serveRequest`. -/
  | throwing (search : Option Nat)
  /-- Before the `close` at the end of `clientSession`. -/
  | cleaning
  | ended
  deriving DecidableEq, Repr

inductive SearchEvent where
  /-- A check lets a search go on; `late` when it has been cancelled. -/
  | passed (search : Nat) (late : Bool)
  | sent (search : Nat) (late : Bool)
  /-- Another thread closes the descriptor that is noted of this active search, and did not cancel it. -/
  | disturbed (search : Nat)
  deriving DecidableEq, Repr

structure Searches (n : Nat) where
  /-- Whose connection an open number is. -/
  table : Nat → Option (Fin n)
  desc : Fin n → Nat
  place : Fin n → SearchPlace
  current : Option (SearchDesc n)
  /-- How many searches have been registered. -/
  searches : Nat
  cancelled : List Nat
  log : List SearchEvent

inductive SearchAct (n : Nat) where
  /-- A client connects, and its descriptor gets a free number. -/
  | accept (thread : Fin n) (number : Nat)
  /-- A client is gone when the next request is read. -/
  | disconnect (thread : Fin n)
  | start (thread : Fin n)
  /-- A client is gone before it has sent all of its request. -/
  | startFails (thread : Fin n)
  | cancel (thread : Fin n)
  /-- The answer to the cancel is not taken. -/
  | cancelFails (thread : Fin n)
  | refuse (thread : Fin n)
  | refusalFails (thread : Fin n)
  | answer (thread : Fin n)
  | answerFails (thread : Fin n)
  | check (thread : Fin n)
  /-- The name does not fit. -/
  | skip (thread : Fin n)
  | write (thread : Fin n)
  | writeFails (thread : Fin n)
  | finish (thread : Fin n)
  | finishFails (thread : Fin n)
  /-- The handler's own call of `on_find_thread_exit_function`. -/
  | complete (thread : Fin n)
  /-- That of `serveRequest`. -/
  | recover (thread : Fin n)
  | cleanUp (thread : Fin n)
  deriving DecidableEq, Repr

namespace SearchPlace

def active : SearchPlace → Bool
  | registered _ | looping _ | checked _ _ => true
  | _ => false

/-- Not in a search, nor at the end of one. -/
def free : SearchPlace → Bool
  | unborn | serving | refused | cleaning | ended => true
  | _ => false

/-- The thread may still use the number of its descriptor. -/
def uses : SearchPlace → Bool
  | unborn | ended => false
  | _ => true

def search : SearchPlace → Option Nat
  | registered id | looping id | checked id _ | finished id => some id
  | throwing id => id
  | _ => none

end SearchPlace

namespace Searches

variable {n : Nat}

def start : Searches n := ⟨fun _ => none,fun _ => 0,fun _ => .unborn,none,0,[],[]⟩

def goes (s : Searches n) (thread : Fin n) (place : SearchPlace) : Searches n :=
  { s with place := Function.update s.place thread place }

def notes (s : Searches n) (e : SearchEvent) : Searches n := { s with log := e :: s.log }

def freed (s : Searches n) (number : Nat) : Searches n :=
  { s with table := Function.update s.table number none }

/-- What `thread` would disturb by closing what is noted. -/
def disturbs (s : Searches n) (thread : Fin n) (c : SearchDesc n) : Bool :=
  c.thread ≠ thread ∧ (s.place c.thread).active

def noteDisturbed (s : Searches n) (thread : Fin n) (c : SearchDesc n) : Searches n :=
  if s.disturbs thread c then s.notes (.disturbed c.search) else s

/-- A thread closes the number of its own descriptor. -/
def close (s : Searches n) (thread : Fin n) : Searches n :=
  let t := s.freed (s.desc thread)
  match s.current with
  | some c => if c.desc = s.desc thread then t.noteDisturbed thread c else t
  | none => t

/-- What is noted is closed and forgotten. -/
def on_find_thread_exit_function (s : Searches n) (thread : Fin n) : Searches n :=
  match s.current with
  | some c => { (s.freed c.desc).noteDisturbed thread c with current := none }
  | none => s

def cancel (s : Searches n) : Searches n :=
  match s.current with
  | some c => { s.freed c.desc with current := none, cancelled := c.search :: s.cancelled }
  | none => s

def register (s : Searches n) (thread : Fin n) : Searches n :=
  { s with current := some ⟨s.searches,thread,s.desc thread⟩, searches := s.searches + 1 }.goes thread
    (.registered s.searches)

def isOpen (s : Searches n) (thread : Fin n) : Bool := (s.table (s.desc thread)).isSome

def step : SearchAct n → Searches n → Option (Searches n)
  | .accept thread number, s =>
    if s.place thread = .unborn ∧ s.table number = none then
      some ({ s with
        table := Function.update s.table number (some thread)
        desc := Function.update s.desc thread number }.goes thread .serving)
    else none
  | .disconnect thread, s =>
    if s.place thread = .serving then some ((s.close thread).goes thread .cleaning) else none
  | .start thread, s =>
    if s.place thread = .serving ∧ s.isOpen thread then
      if s.current.isSome then some (s.goes thread .refused) else some (s.register thread)
    else none
  | .startFails thread, s =>
    if s.place thread = .serving ∧ s.current = none then
      some ((s.close thread).goes thread (.throwing none))
    else none
  | .cancel thread, s =>
    if s.place thread = .serving ∧ s.isOpen thread then some s.cancel else none
  | .cancelFails thread, s =>
    if s.place thread = .serving then some ((s.cancel.close thread).goes thread (.throwing none))
    else none
  | .refuse thread, s =>
    if s.place thread = .refused ∧ s.isOpen thread then some (s.goes thread .serving) else none
  | .refusalFails thread, s =>
    if s.place thread = .refused then some ((s.close thread).goes thread (.throwing none)) else none
  | .answer thread, s =>
    match s.place thread with
    | .registered id => if s.isOpen thread then some (s.goes thread (.looping id)) else none
    | _ => none
  | .answerFails thread, s =>
    match s.place thread with
    | .registered id => some ((s.close thread).goes thread (.throwing (some id)))
    | _ => none
  | .check thread, s =>
    match s.place thread with
    | .looping id =>
      if s.current.isSome then
        let late := decide (id ∈ s.cancelled)
        some ((s.notes (.passed id late)).goes thread (.checked id late))
      else some (s.goes thread (.throwing (some id)))
    | _ => none
  | .skip thread, s =>
    match s.place thread with
    | .checked id _ => some (s.goes thread (.looping id))
    | _ => none
  | .write thread, s =>
    match s.place thread with
    | .checked id late =>
      if s.isOpen thread then some ((s.notes (.sent id late)).goes thread (.looping id)) else none
    | _ => none
  | .writeFails thread, s =>
    match s.place thread with
    | .checked id _ => some (s.goes thread (.throwing (some id)))
    | _ => none
  | .finish thread, s =>
    match s.place thread with
    | .looping id => if s.isOpen thread then some (s.goes thread (.finished id)) else none
    | _ => none
  | .finishFails thread, s =>
    match s.place thread with
    | .looping id => some ((s.close thread).goes thread (.throwing (some id)))
    | _ => none
  | .complete thread, s =>
    match s.place thread with
    | .finished _ => some ((s.on_find_thread_exit_function thread).goes thread .serving)
    | _ => none
  | .recover thread, s =>
    match s.place thread with
    | .throwing _ => some ((s.on_find_thread_exit_function thread).goes thread .cleaning)
    | _ => none
  | .cleanUp thread, s =>
    if s.place thread = .cleaning then some ((s.close thread).goes thread .ended) else none

end Searches

/-- No cancelled search goes on, and none is disturbed. -/
def SearchEvent.Right : SearchEvent → Prop
  | passed _ late => late = false
  | sent _ late => late = false
  | disturbed _ => False

namespace Searches

variable {n : Nat} {s t : Searches n}

/-- A search is registered when no other thread is still in such a request of its own or uses the number,
and a refusal gets to its client. -/
def Apart (s : Searches n) : SearchAct n → Prop
  | .start thread => s.current = none → ∀ thread', thread' ≠ thread → (s.place thread').free = true ∧
      ((s.place thread').uses = true → s.desc thread' ≠ s.desc thread)
  | .refusalFails _ => False
  | _ => True

/-- What is noted is the descriptor of the only thread in a search. -/
structure Owned (s : Searches n) (c : SearchDesc n) : Prop where
  others : ∀ thread, thread ≠ c.thread → (s.place thread).free = true
  search : (s.place c.thread).search = some c.search
  lives : c.search ∉ s.cancelled
  open_ : (s.place c.thread).active = true → s.desc c.thread = c.desc ∧ s.table c.desc ≠ none ∧
    ∀ thread, thread ≠ c.thread → (s.place thread).uses = true → s.desc thread ≠ c.desc

structure Sound (s : Searches n) : Prop where
  owned : ∀ c, s.current = some c → s.Owned c
  fresh : ∀ id ∈ s.cancelled, id < s.searches
  started : ∀ c, s.current = some c → c.search < s.searches
  checked : ∀ thread id late, s.place thread = .checked id late → late = false
  right : ∀ e ∈ s.log, e.Right

section Fields

variable (s) (thread : Fin n) (c : SearchDesc n)

@[simp] theorem noteDisturbed_table : (s.noteDisturbed thread c).table = s.table := by
  unfold noteDisturbed
  split <;> rfl

@[simp] theorem noteDisturbed_desc : (s.noteDisturbed thread c).desc = s.desc := by
  unfold noteDisturbed
  split <;> rfl

@[simp] theorem noteDisturbed_place : (s.noteDisturbed thread c).place = s.place := by
  unfold noteDisturbed
  split <;> rfl

@[simp] theorem noteDisturbed_current : (s.noteDisturbed thread c).current = s.current := by
  unfold noteDisturbed
  split <;> rfl

@[simp] theorem noteDisturbed_searches : (s.noteDisturbed thread c).searches = s.searches := by
  unfold noteDisturbed
  split <;> rfl

@[simp] theorem noteDisturbed_cancelled : (s.noteDisturbed thread c).cancelled = s.cancelled := by
  unfold noteDisturbed
  split <;> rfl

end Fields

/-- The two states differ in their tables and logs. -/
structure SameSearches (s t : Searches n) : Prop where
  desc : t.desc = s.desc
  place : t.place = s.place
  current : t.current = s.current
  searches : t.searches = s.searches
  cancelled : t.cancelled = s.cancelled

theorem sameSearches_close (thread : Fin n) : s.SameSearches (s.close thread) := by
  unfold close
  cases hcurrent : s.current with
  | none => exact ⟨rfl,rfl,hcurrent.symm ▸ rfl,rfl,rfl⟩
  | some c =>
    simp only
    split
    · exact ⟨by simp [freed],by simp [freed],by simp [freed,hcurrent],by simp [freed],by simp [freed]⟩
    · exact ⟨rfl,rfl,hcurrent.symm ▸ rfl,rfl,rfl⟩

theorem close_table (thread : Fin n) :
    (s.close thread).table = Function.update s.table (s.desc thread) none := by
  unfold close
  cases s.current with
  | none => rfl
  | some c =>
    simp only
    split
    · rw [noteDisturbed_table]
      rfl
    · rfl

/-! ### Keeping what is noted -/

@[simp] theorem goes_place_self (thread : Fin n) (place : SearchPlace) :
    (s.goes thread place).place thread = place := by
  simp [goes]

theorem goes_place_of_ne {thread thread' : Fin n} (place : SearchPlace) (h : thread' ≠ thread) :
    (s.goes thread place).place thread' = s.place thread' := by
  simp [goes,h]

theorem Sound.owner_of_not_free (hs : s.Sound) {c : SearchDesc n} {thread : Fin n}
    (hcurrent : s.current = some c) (hplace : (s.place thread).free = false) : c.thread = thread := by
  by_contra hne
  have hfree := (hs.owned c hcurrent).others thread (Ne.symm hne)
  rw [hplace] at hfree
  cases hfree

theorem Sound.close_log (hs : s.Sound) {thread : Fin n} (huses : (s.place thread).uses = true) :
    (s.close thread).log = s.log := by
  unfold close
  cases hcurrent : s.current with
  | none => rfl
  | some c =>
    simp only
    split
    · rename_i hdesc
      have hnot : (s.freed (s.desc thread)).disturbs thread c = false := by
        by_contra htrue
        obtain ⟨hne,hactive⟩ : c.thread ≠ thread ∧ (s.place c.thread).active = true :=
          of_decide_eq_true (Bool.not_eq_false _ ▸ htrue)
        have hopen := (hs.owned c hcurrent).open_ hactive
        exact hopen.2.2 thread (Ne.symm hne) huses hdesc.symm
      rw [noteDisturbed,hnot]
      rfl
    · rfl

theorem on_find_thread_exit_function_log {thread : Fin n}
    (hown : ∀ c, s.current = some c → c.thread = thread) :
    (s.on_find_thread_exit_function thread).log = s.log := by
  unfold on_find_thread_exit_function
  cases hcurrent : s.current with
  | none => rfl
  | some c =>
    have hnot : (s.freed c.desc).disturbs thread c = false := by
      simp [disturbs,hown c hcurrent]
    simp only [noteDisturbed,hnot]
    rfl

/-- A thread goes to another place; where something is noted it stays noted rightly. -/
theorem Sound.goes {u : Searches n} {thread : Fin n} {place : SearchPlace} (hs : s.Sound)
    (hsame : s.SameSearches u) (hlog : ∀ e ∈ u.log, e.Right)
    (hchecked : ∀ id late, place = .checked id late → late = false)
    (howned : ∀ c, s.current = some c → (u.goes thread place).Owned c) :
    (u.goes thread place).Sound where
  owned c hc := howned c (hsame.current ▸ hc)
  fresh id hid := by
    change id ∈ u.cancelled at hid
    change id < u.searches
    rw [hsame.cancelled] at hid
    rw [hsame.searches]
    exact hs.fresh id hid
  started c hc := by
    change c.search < u.searches
    rw [hsame.searches]
    exact hs.started c (hsame.current ▸ hc)
  checked thread' id late hplace := by
    by_cases heq : thread' = thread
    · rw [heq,goes_place_self] at hplace
      exact hchecked id late hplace
    · rw [goes_place_of_ne place heq,hsame.place] at hplace
      exact hs.checked thread' id late hplace
  right := hlog

theorem Owned.goes_other {u : Searches n} {thread : Fin n} {place : SearchPlace} {c : SearchDesc n}
    (h : s.Owned c) (hsame : s.SameSearches u) (hne : c.thread ≠ thread) (hfree : place.free = true)
    (huses : place.uses = true → (s.place thread).uses = true)
    (htable : (s.place c.thread).active = true → u.table c.desc ≠ none) :
    (u.goes thread place).Owned c where
  others thread' hne' := by
    by_cases heq : thread' = thread
    · rw [heq,goes_place_self]
      exact hfree
    · rw [goes_place_of_ne place heq,hsame.place]
      exact h.others thread' hne'
  search := by
    rw [goes_place_of_ne place hne,hsame.place]
    exact h.search
  lives := by
    change c.search ∉ u.cancelled
    rw [hsame.cancelled]
    exact h.lives
  open_ hactive := by
    rw [goes_place_of_ne place hne,hsame.place] at hactive
    obtain ⟨hdesc,_,hapart⟩ := h.open_ hactive
    have hsamedesc : (u.goes thread place).desc = s.desc := hsame.desc
    refine ⟨hsamedesc ▸ hdesc,htable hactive,fun thread' hne' hused => ?_⟩
    rw [hsamedesc]
    by_cases heq : thread' = thread
    · rw [heq] at hused hne' ⊢
      rw [goes_place_self] at hused
      exact hapart thread hne' (huses hused)
    · rw [goes_place_of_ne place heq,hsame.place] at hused
      exact hapart thread' hne' hused

theorem Owned.goes_owner {u : Searches n} {place : SearchPlace} {c : SearchDesc n}
    (h : s.Owned c) (hsame : s.SameSearches u) (hsearch : place.search = some c.search)
    (hactive : place.active = true → (s.place c.thread).active = true ∧ u.table = s.table) :
    (u.goes c.thread place).Owned c where
  others thread' hne' := by
    rw [goes_place_of_ne place hne',hsame.place]
    exact h.others thread' hne'
  search := by
    rw [goes_place_self]
    exact hsearch
  lives := by
    change c.search ∉ u.cancelled
    rw [hsame.cancelled]
    exact h.lives
  open_ hactive' := by
    rw [goes_place_self] at hactive'
    obtain ⟨hbefore,htable⟩ := hactive hactive'
    obtain ⟨hdesc,hopen,hapart⟩ := h.open_ hbefore
    have hsamedesc : (u.goes c.thread place).desc = s.desc := hsame.desc
    have hsametable : (u.goes c.thread place).table = s.table := htable
    rw [hsamedesc,hsametable]
    refine ⟨hdesc,hopen,fun thread' hne' hused => ?_⟩
    rw [goes_place_of_ne place hne',hsame.place] at hused
    exact hapart thread' hne' hused

theorem sameSearches_refl : s.SameSearches s := ⟨rfl,rfl,rfl,rfl,rfl⟩

theorem sameSearches_notes (e : SearchEvent) : s.SameSearches (s.notes e) := ⟨rfl,rfl,rfl,rfl,rfl⟩

theorem Sound.notes (hs : s.Sound) {e : SearchEvent} (he : e.Right) : ∀ e' ∈ (s.notes e).log, e'.Right := by
  intro e' he'
  rcases List.mem_cons.mp he' with rfl | he'
  · exact he
  · exact hs.right e' he'

/-- A step of a thread that is in no search, its descriptor staying as it is or being closed. -/
theorem Sound.step_other {u : Searches n} {thread : Fin n} {place : SearchPlace} (hs : s.Sound)
    (hfree : (s.place thread).free = true) (huses : (s.place thread).uses = true)
    (hplace : place.free = true) (hu : u = s ∨ u = s.close thread) : (u.goes thread place).Sound := by
  have hsame : s.SameSearches u := by
    rcases hu with rfl | rfl
    · exact sameSearches_refl
    · exact sameSearches_close thread
  have hlog : u.log = s.log := by
    rcases hu with rfl | rfl
    · rfl
    · exact hs.close_log huses
  refine hs.goes hsame (hlog ▸ hs.right) (fun id late heq => ?_) fun c hc => ?_
  · rw [heq] at hplace
    cases hplace
  · have hne : c.thread ≠ thread := by
      intro heq
      have hsearch := (hs.owned c hc).search
      rw [heq] at hsearch
      cases hkind : s.place thread <;> simp [hkind,SearchPlace.search,SearchPlace.free] at hsearch hfree
    refine (hs.owned c hc).goes_other hsame hne hplace (fun _ => huses) fun hactive => ?_
    obtain ⟨_,hopen,hapart⟩ := (hs.owned c hc).open_ hactive
    rcases hu with rfl | rfl
    · exact hopen
    · rw [close_table,Function.update_of_ne (hapart thread (Ne.symm hne) huses).symm]
      exact hopen

theorem Sound.step_owner {u : Searches n} {thread : Fin n} {place : SearchPlace} {id : Nat}
    (hs : s.Sound) (hsame : s.SameSearches u) (hnot : (s.place thread).free = false)
    (hsearch : (s.place thread).search = some id) (hplace : place.search = some id)
    (hactive : place.active = true → (s.place thread).active = true ∧ u.table = s.table)
    (hchecked : ∀ late, place = .checked id late → late = false) (hlog : ∀ e ∈ u.log, e.Right) :
    (u.goes thread place).Sound := by
  refine hs.goes hsame hlog (fun id' late heq => ?_) fun c hc => ?_
  · have hid : id' = id := by
      rw [heq] at hplace
      exact Option.some.inj hplace
    exact hchecked late (hid ▸ heq)
  · obtain rfl := hs.owner_of_not_free hc hnot
    have hown := hs.owned c hc
    have hid : c.search = id := Option.some.inj (hown.search.symm.trans hsearch)
    exact hown.goes_owner hsame (hid ▸ hplace) hactive

theorem sound_of_none (hcurrent : s.current = none) (hfresh : ∀ id ∈ s.cancelled, id < s.searches)
    (hchecked : ∀ thread id late, s.place thread = .checked id late → late = false)
    (hright : ∀ e ∈ s.log, e.Right) : s.Sound where
  owned c hc := by rw [hcurrent] at hc; cases hc
  fresh := hfresh
  started c hc := by rw [hcurrent] at hc; cases hc
  checked := hchecked
  right := hright

theorem Sound.checked_goes (hs : s.Sound) {u : Searches n} {thread : Fin n} {place : SearchPlace}
    (hplace : u.place = s.place) (hnot : ∀ id late, place ≠ .checked id late) :
    ∀ thread' id late, (u.goes thread place).place thread' = .checked id late → late = false := by
  intro thread' id late h
  by_cases heq : thread' = thread
  · rw [heq,goes_place_self] at h
    exact absurd h (hnot id late)
  · rw [goes_place_of_ne place heq,hplace] at h
    exact hs.checked thread' id late h

/-- Nothing is noted when a thread has been through `on_find_thread_exit_function`. -/
theorem Sound.step_reset (hs : s.Sound) {thread : Fin n} {place : SearchPlace}
    (hnot : (s.place thread).free = false) (hplace : ∀ id late, place ≠ .checked id late) :
    ((s.on_find_thread_exit_function thread).goes thread place).Sound := by
  have hfields : (s.on_find_thread_exit_function thread).current = none ∧
      (s.on_find_thread_exit_function thread).place = s.place ∧
      (s.on_find_thread_exit_function thread).searches = s.searches ∧
      (s.on_find_thread_exit_function thread).cancelled = s.cancelled := by
    unfold on_find_thread_exit_function
    cases hcurrent : s.current with
    | none => exact ⟨hcurrent,rfl,rfl,rfl⟩
    | some c => exact ⟨rfl,by simp [freed],by simp [freed],by simp [freed]⟩
  obtain ⟨hcurrent,hsame,hsearches,hcancelled⟩ := hfields
  refine sound_of_none hcurrent (fun id hid => ?_) (hs.checked_goes hsame hplace) ?_
  · change id ∈ (s.on_find_thread_exit_function thread).cancelled at hid
    change id < (s.on_find_thread_exit_function thread).searches
    rw [hcancelled] at hid
    rw [hsearches]
    exact hs.fresh id hid
  · change ∀ e ∈ (s.on_find_thread_exit_function thread).log, e.Right
    rw [on_find_thread_exit_function_log fun c hc => hs.owner_of_not_free hc hnot]
    exact hs.right

theorem cancel_fields : s.cancel.current = none ∧ s.cancel.place = s.place ∧ s.cancel.log = s.log := by
  unfold cancel
  cases hcurrent : s.current with
  | none => exact ⟨hcurrent,rfl,rfl⟩
  | some c => exact ⟨rfl,rfl,rfl⟩

theorem Sound.cancel (hs : s.Sound) : s.cancel.Sound := by
  obtain ⟨hcurrent,hplace,hlog⟩ := cancel_fields (s := s)
  refine sound_of_none hcurrent ?_ (fun thread id late h => ?_) (hlog ▸ hs.right)
  · unfold Searches.cancel
    cases hcurrent : s.current with
    | none => exact hs.fresh
    | some c =>
      intro id hid
      rcases List.mem_cons.mp hid with rfl | hid
      · exact hs.started c hcurrent
      · exact hs.fresh id hid
  · rw [hplace] at h
    exact hs.checked thread id late h

theorem Sound.step_unnoted (hs : s.Sound) {thread : Fin n} {place : SearchPlace}
    (hcurrent : s.current = none) (hplace : ∀ id late, place ≠ .checked id late) :
    ((s.close thread).goes thread place).Sound := by
  have hsame := sameSearches_close (s := s) thread
  have hlog : (s.close thread).log = s.log := by
    unfold close
    rw [hcurrent]
    rfl
  refine hs.goes hsame (hlog ▸ hs.right) (fun id late heq => absurd heq (hplace id late)) ?_
  intro c hc
  rw [hcurrent] at hc
  cases hc

theorem Sound.accept (hs : s.Sound) {thread : Fin n} {number : Nat}
    (hplace : s.place thread = .unborn) (hfree : s.table number = none) :
    ({ s with
      table := Function.update s.table number (some thread)
      desc := Function.update s.desc thread number }.goes thread .serving).Sound where
  owned c hc := by
    have hown := hs.owned c hc
    have hne : c.thread ≠ thread := by
      intro heq
      have hsearch := hown.search
      rw [heq,hplace] at hsearch
      cases hsearch
    constructor
    · intro thread' hne'
      by_cases heq : thread' = thread
      · rw [heq,goes_place_self]
        rfl
      · rw [goes_place_of_ne _ heq]
        exact hown.others thread' hne'
    · rw [goes_place_of_ne _ hne]
      exact hown.search
    · exact hown.lives
    · intro hactive
      rw [goes_place_of_ne _ hne] at hactive
      obtain ⟨hdesc,hopen,hapart⟩ := hown.open_ hactive
      have hother : number ≠ c.desc := fun heq => hopen (heq ▸ hfree)
      refine ⟨(Function.update_of_ne hne _ _).trans hdesc,?_,fun thread' hne' hused => ?_⟩
      · change Function.update s.table number (some thread) c.desc ≠ none
        rw [Function.update_of_ne hother.symm]
        exact hopen
      · change Function.update s.desc thread number thread' ≠ c.desc
        by_cases heq : thread' = thread
        · rw [heq,Function.update_self]
          exact hother
        · rw [Function.update_of_ne heq]
          rw [goes_place_of_ne _ heq] at hused
          exact hapart thread' hne' hused
  fresh := hs.fresh
  started := hs.started
  checked := hs.checked_goes rfl fun _ _ h => by cases h
  right := hs.right

theorem Sound.register (hs : s.Sound) {thread : Fin n} (hopen : s.isOpen thread = true)
    (hapart : ∀ thread', thread' ≠ thread → (s.place thread').free = true ∧
      ((s.place thread').uses = true → s.desc thread' ≠ s.desc thread)) : (s.register thread).Sound where
  owned c hc := by
    obtain rfl := Option.some.inj hc
    constructor
    · intro thread' hne
      rw [Searches.register,goes_place_of_ne _ hne]
      exact (hapart thread' hne).1
    · rw [Searches.register,goes_place_self]
      rfl
    · exact fun hmem => Nat.lt_irrefl _ (hs.fresh _ hmem)
    · intro _
      refine ⟨rfl,?_,fun thread' hne hused => ?_⟩
      · change s.table (s.desc thread) ≠ none
        exact Option.isSome_iff_ne_none.mp hopen
      · rw [Searches.register,goes_place_of_ne _ hne] at hused
        exact (hapart thread' hne).2 hused
  fresh id hid := Nat.lt_succ_of_lt (hs.fresh id hid)
  started c hc := by
    obtain rfl := Option.some.inj hc
    exact Nat.lt_succ_self _
  checked := hs.checked_goes rfl fun _ _ h => by cases h
  right := hs.right

theorem sound_start : (start : Searches n).Sound :=
  sound_of_none rfl (fun _ h => by cases h) (fun _ _ _ h => by cases h) fun _ h => by cases h

/-- What a step can do. -/
inductive Effect (s : Searches n) : SearchAct n → Searches n → Prop
  | accept {thread : Fin n} {number : Nat} : s.place thread = .unborn → s.table number = none →
      Effect s (.accept thread number) ({ s with
        table := Function.update s.table number (some thread)
        desc := Function.update s.desc thread number }.goes thread .serving)
  | register {thread : Fin n} : s.isOpen thread = true → s.current = none →
      Effect s (.start thread) (s.register thread)
  | cancel {thread : Fin n} : Effect s (.cancel thread) s.cancel
  /-- A thread that is in no search goes on, perhaps without its descriptor. -/
  | other {act : SearchAct n} {u : Searches n} {thread : Fin n} {place : SearchPlace} :
      (s.place thread).free = true → (s.place thread).uses = true → place.free = true →
      u = s ∨ u = s.close thread → Effect s act (u.goes thread place)
  /-- A thread fails when nothing is noted. -/
  | fails {act : SearchAct n} {u : Searches n} {thread : Fin n} :
      u = s ∧ s.current = none ∨ u = s.cancel → Effect s act ((u.close thread).goes thread (.throwing none))
  | refusalFails {thread : Fin n} {t : Searches n} : Effect s (.refusalFails thread) t
  /-- A thread goes on with its search or gives it up. -/
  | moves {act : SearchAct n} {thread : Fin n} {place : SearchPlace} {id : Nat} :
      (s.place thread).search = some id → place.search = some id →
      (place.active = true → (s.place thread).active = true) → (∀ late, place ≠ .checked id late) →
      Effect s act (s.goes thread place)
  | closes {act : SearchAct n} {thread : Fin n} {id : Nat} : (s.place thread).search = some id →
      Effect s act ((s.close thread).goes thread (.throwing (some id)))
  | checks {thread : Fin n} {id : Nat} : s.place thread = .looping id → s.current.isSome →
      Effect s (.check thread) ((s.notes (.passed id (decide (id ∈ s.cancelled)))).goes thread
        (.checked id (decide (id ∈ s.cancelled))))
  | writes {thread : Fin n} {id : Nat} {late : Bool} : s.place thread = .checked id late →
      Effect s (.write thread) ((s.notes (.sent id late)).goes thread (.looping id))
  | reset {act : SearchAct n} {thread : Fin n} {place : SearchPlace} : (s.place thread).free = false →
      place.free = true → Effect s act ((s.on_find_thread_exit_function thread).goes thread place)

theorem effect_of_step {act : SearchAct n} (h : step act s = some t) : s.Effect act t := by
  cases act with
  | accept thread number =>
    obtain ⟨⟨hplace,hfree⟩,ht⟩ := Option.ite_none_right_eq_some.mp h
    cases ht
    exact .accept hplace hfree
  | disconnect thread | cleanUp thread =>
    obtain ⟨hplace,ht⟩ := Option.ite_none_right_eq_some.mp h
    cases ht
    exact .other (by rw [hplace]; rfl) (by rw [hplace]; rfl) rfl (.inr rfl)
  | start thread =>
    obtain ⟨⟨hplace,hopen⟩,ht⟩ := Option.ite_none_right_eq_some.mp h
    split at ht
    · cases ht
      exact .other (by rw [hplace]; rfl) (by rw [hplace]; rfl) rfl (.inl rfl)
    · rename_i hnone
      cases ht
      exact .register hopen (by simpa using hnone)
  | startFails thread =>
    obtain ⟨⟨_,hnone⟩,ht⟩ := Option.ite_none_right_eq_some.mp h
    cases ht
    exact .fails (.inl ⟨rfl,hnone⟩)
  | cancel thread =>
    obtain ⟨_,ht⟩ := Option.ite_none_right_eq_some.mp h
    cases ht
    exact .cancel
  | cancelFails thread =>
    obtain ⟨_,ht⟩ := Option.ite_none_right_eq_some.mp h
    cases ht
    exact .fails (.inr rfl)
  | refuse thread =>
    obtain ⟨⟨hplace,_⟩,ht⟩ := Option.ite_none_right_eq_some.mp h
    cases ht
    exact .other (by rw [hplace]; rfl) (by rw [hplace]; rfl) rfl (.inl rfl)
  | refusalFails thread => exact .refusalFails
  | answer thread | finish thread =>
    simp only [step] at h
    split at h
    · rename_i id hplace
      obtain ⟨_,ht⟩ := Option.ite_none_right_eq_some.mp h
      cases ht
      exact .moves (by rw [hplace]; rfl) rfl (fun _ => by rw [hplace]; rfl) fun _ heq => by cases heq
    · cases h
  | answerFails thread | finishFails thread =>
    simp only [step] at h
    split at h
    · rename_i id hplace
      cases h
      exact .closes (by rw [hplace]; rfl)
    · cases h
  | check thread =>
    simp only [step] at h
    split at h
    · rename_i id hplace
      split at h
      · rename_i hsome
        cases h
        exact .checks hplace hsome
      · cases h
        exact .moves (by rw [hplace]; rfl) rfl (fun hactive => by cases hactive) fun _ heq => by cases heq
    · cases h
  | skip thread | writeFails thread =>
    simp only [step] at h
    split at h
    · rename_i id late hplace
      cases h
      exact .moves (by rw [hplace]; rfl) rfl (fun _ => by rw [hplace]; rfl) fun _ heq => by cases heq
    · cases h
  | write thread =>
    simp only [step] at h
    split at h
    · rename_i id late hplace
      obtain ⟨_,ht⟩ := Option.ite_none_right_eq_some.mp h
      cases ht
      exact .writes hplace
    · cases h
  | complete thread | recover thread =>
    simp only [step] at h
    split at h
    · rename_i id hplace
      cases h
      exact .reset (by rw [hplace]; rfl) rfl
    · cases h

theorem not_free_of_search {place : SearchPlace} {id : Nat} (h : place.search = some id) :
    place.free = false ∧ place.uses = true := by
  cases place <;> first | exact ⟨rfl,rfl⟩ | cases h

/-- The search that is noted is the one that is checked, and has not been cancelled. -/
theorem Sound.checks (hs : s.Sound) {thread : Fin n} {id : Nat} (hplace : s.place thread = .looping id)
    (hsome : s.current.isSome) :
    ((s.notes (.passed id (decide (id ∈ s.cancelled)))).goes thread
      (.checked id (decide (id ∈ s.cancelled)))).Sound := by
  obtain ⟨c,hc⟩ := Option.isSome_iff_exists.mp hsome
  have hthread := hs.owner_of_not_free hc (by rw [hplace]; rfl : (s.place thread).free = false)
  have hown := hs.owned c hc
  have hid : c.search = id := by
    have hsearch := hown.search
    rw [hthread,hplace] at hsearch
    exact (Option.some.inj hsearch).symm
  have hlate : decide (id ∈ s.cancelled) = false := decide_eq_false (hid ▸ hown.lives)
  rw [hlate]
  exact hs.step_owner (sameSearches_notes _) (by rw [hplace]; rfl) (by rw [hplace]; rfl) rfl
    (fun _ => ⟨by rw [hplace]; rfl,rfl⟩) (fun _ heq => (by cases heq; rfl)) (hs.notes rfl)

theorem sound_step {act : SearchAct n} (hs : s.Sound) (hok : s.Apart act)
    (h : step act s = some t) : t.Sound := by
  cases effect_of_step h with
  | accept hplace hfree => exact hs.accept hplace hfree
  | register hopen hnone => exact hs.register hopen (hok hnone)
  | cancel => exact hs.cancel
  | other hfree huses hplace hu => exact hs.step_other hfree huses hplace hu
  | fails hu =>
    rcases hu with ⟨rfl,hnone⟩ | rfl
    · exact hs.step_unnoted hnone fun _ _ heq => by cases heq
    · exact hs.cancel.step_unnoted cancel_fields.1 fun _ _ heq => by cases heq
  | refusalFails => exact hok.elim
  | moves hsearch hplace hactive hnot =>
    exact hs.step_owner sameSearches_refl (not_free_of_search hsearch).1 hsearch hplace
      (fun h => ⟨hactive h,rfl⟩) (fun late heq => absurd heq (hnot late)) hs.right
  | closes hsearch =>
    obtain ⟨hnot,huses⟩ := not_free_of_search hsearch
    exact hs.step_owner (sameSearches_close _) hnot hsearch rfl
      (fun hactive => by cases hactive) (fun _ heq => by cases heq) (hs.close_log huses ▸ hs.right)
  | checks hplace hsome => exact hs.checks hplace hsome
  | writes hplace =>
    exact hs.step_owner (sameSearches_notes _) (by rw [hplace]; rfl) (by rw [hplace]; rfl) rfl
      (fun _ => ⟨by rw [hplace]; rfl,rfl⟩) (fun _ heq => by cases heq)
      (hs.notes (hs.checked _ _ _ hplace))
  | reset hnot hplace =>
    refine hs.step_reset hnot fun id late heq => ?_
    rw [heq] at hplace
    cases hplace

/-- In every run in which a search is only registered when no other thread is still in such a request or
uses the number, and every refusal gets to its client, no cancelled search goes on or sends anything, and
no active search is disturbed. -/
theorem searches_right (h : Reachable step Apart start s) : ∀ e ∈ s.log, e.Right :=
  (h.invariant sound_start fun _ _ _ hs hok hstep => sound_step hs hok hstep).right

instance (s : Searches n) (act : SearchAct n) : Decidable (s.Apart act) := by
  unfold Apart
  cases act <;> infer_instance

/-- A search sends an entry and is cancelled; when its thread has ended another client searches. -/
theorem searches_right_two : ∃ s : Searches 3, Reachable step Apart start s ∧
    s.log = [.passed 1 false,.sent 0 false,.passed 0 false] ∧ ∀ e ∈ s.log, e.Right := by
  obtain ⟨s,hs,hp⟩ := @exists_reachable _ _ step Apart (start : Searches 3) _
    (fun s => s.log = [.passed 1 false,.sent 0 false,.passed 0 false])
    [.accept 0 5,.accept 1 6,.accept 2 7,.start 0,.answer 0,.check 0,.write 0,.cancel 1,.check 0,
      .recover 0,.cleanUp 0,.start 2,.answer 2,.check 2] (by decide +kernel)
  simp only [decide_eq_true_eq] at hp
  exact ⟨s,hs,hp,searches_right hs⟩

/-- A cancelled search goes on when another one has been started, and then its end takes that one's
descriptor; so does a refusal that does not get to its client. When the next client has got the number
of the cancelled search, it is sent its entries. -/
theorem searches_wrong :
    (∃ s : Searches 3, Reachable step (fun _ _ => True) start s ∧
      .passed 0 true ∈ s.log ∧ .disturbed 1 ∈ s.log) ∧
    (∃ s : Searches 2, Reachable step (fun _ _ => True) start s ∧ .disturbed 0 ∈ s.log) ∧
    (∃ s : Searches 3, Reachable step (fun _ _ => True) start s ∧ .sent 0 true ∈ s.log) := by
  refine ⟨?_,?_,?_⟩
  · obtain ⟨s,hs,hp⟩ := @exists_reachable _ _ step (fun _ _ => True) (start : Searches 3) _
      (fun s => .passed 0 true ∈ s.log ∧ .disturbed 1 ∈ s.log)
      [.accept 0 5,.accept 1 6,.accept 2 7,.start 0,.answer 0,.cancel 1,.start 2,.answer 2,.check 0,
        .writeFails 0,.recover 0] (by decide +kernel)
    exact ⟨s,hs,by simpa using hp⟩
  · obtain ⟨s,hs,hp⟩ := @exists_reachable _ _ step (fun _ _ => True) (start : Searches 2) _
      (fun s => .disturbed 0 ∈ s.log)
      [.accept 0 5,.accept 1 6,.start 0,.answer 0,.start 1,.refusalFails 1,.recover 1]
      (by decide +kernel)
    exact ⟨s,hs,by simpa using hp⟩
  · obtain ⟨s,hs,hp⟩ := @exists_reachable _ _ step (fun _ _ => True) (start : Searches 3) _
      (fun s => .sent 0 true ∈ s.log)
      [.accept 0 5,.accept 1 6,.start 0,.answer 0,.cancel 1,.accept 2 5,.start 2,.check 0,.write 0]
      (by decide +kernel)
    exact ⟨s,hs,by simpa using hp⟩

end Searches
end RootHelper
