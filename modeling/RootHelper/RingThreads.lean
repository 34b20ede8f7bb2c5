import RootHelper.RingBuffer
import RootHelper.Control.Systems

/-!
The ring buffer between its threads: the one that reads, the one that writes records into it and
the one that closes it. A thread holds the mutex from its check up to its wait and from the end of
the wait on; `close` takes no mutex.
-/

set_option autoImplicit false

namespace RootHelper
open Posix Control

/-- What a check has a thread do. -/
inductive RingCheck where
  | goes
  | waits
  | ends
  deriving DecidableEq, Repr

namespace RingBuffer

def readCheck (rb : RingBuffer) : RingCheck :=
  if rb.readIdx = rb.writeIdx then if rb.closed then .ends else .waits else .goes

def readRecheck (rb : RingBuffer) : RingCheck :=
  if rb.closed ∧ rb.readIdx = rb.writeIdx then .ends else .goes

def writeCheck (rb : RingBuffer) : RingCheck :=
  if rb.closed then .ends else if rb.isFull then .waits else .goes

def writeRecheck (rb : RingBuffer) : RingCheck := if rb.closed then .ends else .goes

end RingBuffer

/-- Where a thread is in a call with the argument `a`. -/
inductive Place (α β : Type) where
  | out
  | entered (a : α)
  | locked (a : α)
  /-- It will wait and still has the mutex. -/
  | checked (a : α)
  /-- Without the mutex and without a wake-up. -/
  | waiting (a : α)
  | woken (a : α)
  | relocked (a : α)
  | copying (a : α)
  /-- It has still to notify the other side. -/
  | copied (a : α) (b : β)
  /-- It has seen that the ring is closed. -/
  | ended (a : α)
  | returning (a : α) (b : β)
  deriving DecidableEq, Repr

/-- What `read` and `write` have of their own; `next` is what the thread does with the result. -/
structure RingCall (α β : Type) where
  check : RingBuffer → RingCheck
  recheck : RingBuffer → RingCheck
  copy : α → RingM β
  eof : RingBuffer → β
  next : α → β → Except RingFault (Place α β)

inductive Side where
  | reader
  | writer
  deriving DecidableEq, Repr

/-- A step of a thread and what it leaves behind. -/
structure Moved (α β : Type) where
  place : Place α β
  ring : RingBuffer
  mutex : Option Side
  notifies : Bool
  exited : Option RingFault

section Calls

variable {α β : Type}

def RingCheck.place (a : α) : RingCheck → Place α β
  | .goes => .copying a
  | .waits => .checked a
  | .ends => .ended a

/-- `notify_one` only wakes a thread that already waits. -/
def Place.notified : Place α β → Place α β
  | .waiting a => .woken a
  | p => p

/-- The next step of the thread on `side`; none while it waits for the mutex or for a wake-up. -/
def RingCall.move (call : RingCall α β) (side : Side) (ring : RingBuffer) (mutex : Option Side) :
    Place α β → Option (Moved α β)
  | .out => none
  | .entered a => if mutex = none then some ⟨.locked a,ring,some side,false,none⟩ else none
  | .locked a => some ⟨(call.check ring).place a,ring,mutex,false,none⟩
  | .checked a => some ⟨.waiting a,ring,none,false,none⟩
  | .waiting _ => none
  | .woken a => if mutex = none then some ⟨.relocked a,ring,some side,false,none⟩ else none
  | .relocked a => some ⟨(call.recheck ring).place a,ring,mutex,false,none⟩
  | .copying a =>
    match call.copy a ring with
    | .ok b ring' => some ⟨.copied a b,ring',mutex,false,none⟩
    | .error e ring' => some ⟨.copying a,ring',mutex,false,some e⟩
  | .copied a b => some ⟨.returning a b,ring,mutex,true,none⟩
  | .ended a => some ⟨.returning a (call.eof ring),ring,mutex,false,none⟩
  | .returning a b =>
    match call.next a b with
    | .ok p => some ⟨p,ring,none,false,none⟩
    | .error e => some ⟨.returning a b,ring,none,false,some e⟩

end Calls

def readCall : RingCall Nat (Int × Str) where
  check := RingBuffer.readCheck
  recheck := RingBuffer.readRecheck
  copy := RingBuffer.readCopy
  eof := fun rb => (rb.eof,[])
  next := fun _ _ => .ok .out

/-- A `write` of `buf`; in a record of `size` bytes, of those `writeAll` has still to write. -/
structure Writing where
  buf : Str
  record : Option Nat
  deriving DecidableEq, Repr

/-- After a `write` that gave `curr`: `writeAll`, and `tls_record_received` with what that gives,
compared as a `size_t`. -/
def Writing.next (w : Writing) (curr : Int) : Except RingFault (Place Writing Int) :=
  match w.record with
  | none => .ok .out
  | some size =>
    if curr ≤ 0 then if sizeT curr < size then .error (.exit 91) else .ok .out
    else
      let remaining := w.buf.drop curr.toNat
      if remaining = [] then .ok .out else .ok (.entered { w with buf := remaining })

def writeCall : RingCall Writing Int where
  check := RingBuffer.writeCheck
  recheck := RingBuffer.writeRecheck
  copy := fun w => RingBuffer.writeCopy w.buf
  eof := fun _ => -1
  next := Writing.next

/-- Where the closing thread is in `close`. -/
inductive Closer where
  | ready
  | exchanged (brokenConnection_ : Bool)
  | stored
  | completed
  deriving DecidableEq, Repr

structure Threads where
  ring : RingBuffer
  mutex : Option Side
  reader : Place Nat (Int × Str)
  writer : Place Writing Int
  closer : Closer
  exited : Option RingFault

inductive ThreadAct where
  | read (count : Nat)
  | write (buf : Str)
  | tls_record_received (buf : Str)
  | close (brokenConnection_ : Bool)
  | reader
  | writer
  | closer
  /-- A wait that ends without a notification. -/
  | spurious (side : Side)
  deriving DecidableEq, Repr

namespace Threads

def new (capacity : Int) (memory : Nat → Byte) : Threads where
  ring := .new capacity memory
  mutex := none
  reader := .out
  writer := .out
  closer := .ready
  exited := none

def readerMoved (s : Threads) (m : Moved Nat (Int × Str)) : Threads :=
  { s with
    ring := m.ring
    mutex := m.mutex
    reader := m.place
    writer := if m.notifies then s.writer.notified else s.writer
    exited := m.exited }

def writerMoved (s : Threads) (m : Moved Writing Int) : Threads :=
  { s with
    ring := m.ring
    mutex := m.mutex
    reader := if m.notifies then s.reader.notified else s.reader
    writer := m.place
    exited := m.exited }

/-- A call begins; its buffer has a `size_t` of bytes. -/
def begin (s : Threads) : ThreadAct → Option Threads
  | .read count => if s.reader = .out then some { s with reader := .entered count } else none
  | .write buf =>
    if s.writer = .out ∧ buf.length < 2^64 then some { s with writer := .entered ⟨buf,none⟩ }
    else none
  | .tls_record_received buf =>
    if s.writer = .out ∧ buf.length < 2^64 then
      some { s with writer := .entered ⟨buf,some buf.length⟩ }
    else none
  | .close brokenConnection_ =>
    if s.closer = .ready ∨ s.closer = .completed then
      if s.ring.closed then some { s with closer := .completed }
      else some { s with ring.closed := true, closer := .exchanged brokenConnection_ }
    else none
  | _ => none

/-- `close` after its exchange: it notifies the reading side only. -/
def closerStep (s : Threads) : Option Threads :=
  match s.closer with
  | .exchanged b => some { s with ring.brokenConnection := b, closer := .stored }
  | .stored => some { s with reader := s.reader.notified, closer := .completed }
  | _ => none

def step (act : ThreadAct) (s : Threads) : Option Threads :=
  if s.exited = none then
    match act with
    | .reader => (readCall.move .reader s.ring s.mutex s.reader).map s.readerMoved
    | .writer => (writeCall.move .writer s.ring s.mutex s.writer).map s.writerMoved
    | .closer => s.closerStep
    | .spurious .reader =>
      if s.reader.notified = s.reader then none else some { s with reader := s.reader.notified }
    | .spurious .writer =>
      if s.writer.notified = s.writer then none else some { s with writer := s.writer.notified }
    | act => s.begin act
  else none

end Threads

namespace RingBuffer

theorem read_eq (count : Nat) (rb : RingBuffer) :
    read count rb = match rb.readCheck with
      | .goes => (some <$> readCopy count : RingM _) rb
      | .waits => .ok none rb
      | .ends => .ok (some (rb.eof,[])) rb := by
  unfold readCheck
  change (if rb.readIdx = rb.writeIdx then
    if rb.closed then pure (some (rb.eof,[])) else pure none else some <$> readCopy count : RingM _) rb = _
  by_cases hempty : rb.readIdx = rb.writeIdx
  · by_cases hclosed : rb.closed
    · rw [if_pos hempty,if_pos hclosed,if_pos hempty,if_pos hclosed]
      rfl
    · rw [if_pos hempty,if_neg hclosed,if_pos hempty,if_neg hclosed]
      rfl
  · rw [if_neg hempty,if_neg hempty]

theorem write_eq (buf : Str) (rb : RingBuffer) :
    write buf rb = match rb.writeCheck with
      | .goes => (some <$> writeCopy buf : RingM _) rb
      | .waits => .ok none rb
      | .ends => .ok (some (-1)) rb := by
  unfold writeCheck
  change (if rb.closed then pure (some (-1))
    else if rb.isFull then pure none else some <$> writeCopy buf : RingM _) rb = _
  by_cases hclosed : rb.closed
  · rw [if_pos hclosed,if_pos hclosed]
    rfl
  · by_cases hfull : rb.isFull
    · rw [if_neg hclosed,if_pos hfull,if_neg hclosed,if_pos hfull]
      rfl
    · rw [if_neg hclosed,if_neg hfull,if_neg hclosed,if_neg hfull]

theorem readWoken_eq (count : Nat) (rb : RingBuffer) :
    readWoken count rb =
      if rb.readRecheck = .ends then .ok (rb.eof,[]) rb else readCopy count rb := by
  change (if rb.closed ∧ rb.readIdx = rb.writeIdx then pure (rb.eof,[]) else readCopy count : RingM _) rb = _
  unfold readRecheck
  split_ifs <;> first | rfl | contradiction

theorem writeWoken_eq (buf : Str) (rb : RingBuffer) :
    writeWoken buf rb = if rb.writeRecheck = .ends then .ok (-1) rb else writeCopy buf rb := by
  change (if rb.closed then pure (-1) else writeCopy buf : RingM _) rb = _
  unfold writeRecheck
  split_ifs <;> first | rfl | contradiction

/-- Only `close` closes a ring. -/
def SameEnd (rb rb' : RingBuffer) : Prop := rb'.closed = rb.closed

instance : Std.Refl SameEnd := ⟨fun _ => rfl⟩

instance : IsTrans RingBuffer SameEnd := ⟨fun _ _ _ h h' => Eq.trans h' h⟩

theorem sameEnd_incrementRead (offset : Int) : Moves SameEnd (incrementRead offset) := by
  intro rb
  rw [Leaves,incrementRead,wp_bind,wp_get,wp_ite]
  exact ⟨fun _ => rfl,fun _ => rfl⟩

theorem sameEnd_incrementWrite (offset : Int) : Moves SameEnd (incrementWrite offset) := by
  intro rb
  rw [Leaves,incrementWrite,wp_bind,wp_get,wp_ite]
  exact ⟨fun _ => rfl,fun _ => rfl⟩

theorem sameEnd_memcpyFrom (off n : Int) : Moves SameEnd (memcpyFrom off n) :=
  moves_get.bind fun _ => Moves.ite (moves_pure _) (moves_throw _)

theorem sameEnd_memcpyTo (off : Int) (src : Str) (n : Int) :
    Moves SameEnd (memcpyTo off src n) := by
  intro rb
  rw [Leaves,memcpyTo,wp_bind,wp_get,wp_ite]
  exact ⟨fun _ => rfl,fun _ => rfl⟩

theorem sameEnd_readCopy (count : Nat) : Moves SameEnd (readCopy count) := by
  refine moves_get.bind fun rb => ?_
  generalize bytesToBeCopied count rb.oneDirCircularDistance = k
  refine Moves.bind ?_ fun buf => (sameEnd_incrementRead k).bind fun _ => moves_pure _
  generalize int (rb.capacity - rb.readIdx) = pre
  have straight := sameEnd_memcpyFrom rb.readIdx k
  have split : Moves SameEnd (do
      let a ← memcpyFrom rb.readIdx pre
      let b ← memcpyFrom 0 (int (k - pre))
      pure (a ++ b)) :=
    (sameEnd_memcpyFrom _ _).bind fun _ => (sameEnd_memcpyFrom _ _).bind fun _ => moves_pure _
  exact Moves.ite (Moves.ite (Moves.ite (moves_throw _) split) straight)
    (Moves.ite (moves_throw _) straight)

theorem sameEnd_writeCopy (buf : Str) : Moves SameEnd (writeCopy buf) := by
  refine moves_get.bind fun rb => Moves.ite (moves_throw _) ?_
  generalize bytesToBeCopied buf.length _ = k
  generalize int (rb.capacity - rb.writeIdx) = pre
  have last : Moves SameEnd (do incrementWrite k; pure k) :=
    (sameEnd_incrementWrite k).bind fun _ => moves_pure _
  have straight : Moves SameEnd (do memcpyTo rb.writeIdx buf k; incrementWrite k; pure k) :=
    (sameEnd_memcpyTo _ _ _).bind fun _ => last
  have rest : Moves SameEnd (do
      memcpyTo 0 (buf.drop pre.toNat) (int (k - pre))
      incrementWrite k
      pure k) := (sameEnd_memcpyTo _ _ _).bind fun _ => last
  refine Moves.ite (Moves.ite ((moves_throw _).bind fun _ => last) (Moves.ite ?_ straight)) straight
  refine Moves.ite ((moves_throw _).bind fun _ => last) ((sameEnd_memcpyTo _ _ _).bind fun _ => ?_)
  exact Moves.ite rest last

end RingBuffer

section Moves

variable {α β : Type} {call : RingCall α β} {side : Side} {ring : RingBuffer} {mutex : Option Side}
  {p : Place α β} {m : Moved α β}

theorem RingCall.move_ring (h : call.move side ring mutex p = some m) :
    m.ring = ring ∨ ∃ a, p = .copying a ∧ m.ring = final (call.copy a) ring := by
  cases p with
  | out => simp [move] at h
  | waiting a => simp [move] at h
  | entered a =>
    simp only [move,Option.ite_none_right_eq_some,Option.some.injEq] at h
    exact .inl (by rw [← h.2])
  | woken a =>
    simp only [move,Option.ite_none_right_eq_some,Option.some.injEq] at h
    exact .inl (by rw [← h.2])
  | copying a =>
    right
    refine ⟨a,rfl,?_⟩
    unfold move at h
    unfold final
    cases hx : call.copy a ring <;> (simp only [hx,Option.some.injEq] at h; rw [← h])
  | returning a b =>
    left
    unfold move at h
    cases hx : call.next a b <;> (simp only [hx,Option.some.injEq] at h; rw [← h])
  | locked a | checked a | relocked a | copied a b | ended a =>
    left
    simp only [move,Option.some.injEq] at h
    rw [← h]

end Moves

namespace Threads

variable {s t : Threads} {act : ThreadAct}

/-- What one step can do. -/
inductive StepCase (s : Threads) : ThreadAct → Threads → Prop
  | reader {m : Moved Nat (Int × Str)} :
      readCall.move .reader s.ring s.mutex s.reader = some m → StepCase s .reader (s.readerMoved m)
  | writer {m : Moved Writing Int} :
      writeCall.move .writer s.ring s.mutex s.writer = some m → StepCase s .writer (s.writerMoved m)
  | reads {count : Nat} : s.reader = .out →
      StepCase s (.read count) { s with reader := .entered count }
  | writes {act : ThreadAct} {w : Writing} : s.writer = .out → w.buf.length < 2^64 →
      (w.record = none ∨ w.record = some w.buf.length) →
      StepCase s act { s with writer := .entered w }
  | spuriousRead : StepCase s (.spurious .reader) { s with reader := s.reader.notified }
  | spuriousWrite : StepCase s (.spurious .writer) { s with writer := s.writer.notified }
  | closedAgain {b : Bool} : (s.closer = .ready ∨ s.closer = .completed) → s.ring.closed →
      StepCase s (.close b) { s with closer := .completed }
  | exchanges {b : Bool} : (s.closer = .ready ∨ s.closer = .completed) → s.ring.closed = false →
      StepCase s (.close b) { s with ring.closed := true, closer := .exchanged b }
  | stores {b : Bool} : s.closer = .exchanged b →
      StepCase s .closer { s with ring.brokenConnection := b, closer := .stored }
  | notifies : s.closer = .stored →
      StepCase s .closer { s with reader := s.reader.notified, closer := .completed }

theorem step_cases (h : s.step act = some t) : s.exited = none ∧ StepCase s act t := by
  unfold step at h
  split at h
  · rename_i halive
    refine ⟨halive,?_⟩
    cases act with
    | reader =>
      obtain ⟨m,hm,rfl⟩ := Option.map_eq_some_iff.mp h
      exact .reader hm
    | writer =>
      obtain ⟨m,hm,rfl⟩ := Option.map_eq_some_iff.mp h
      exact .writer hm
    | read count =>
      simp only [begin,Option.ite_none_right_eq_some,Option.some.injEq] at h
      exact h.2 ▸ .reads h.1
    | write buf =>
      simp only [begin,Option.ite_none_right_eq_some,Option.some.injEq] at h
      exact h.2 ▸ .writes h.1.1 h.1.2 (.inl rfl)
    | tls_record_received buf =>
      simp only [begin,Option.ite_none_right_eq_some,Option.some.injEq] at h
      exact h.2 ▸ .writes h.1.1 h.1.2 (.inr rfl)
    | spurious side =>
      cases side with
      | reader =>
        simp only [Option.ite_none_left_eq_some,Option.some.injEq] at h
        exact h.2 ▸ .spuriousRead
      | writer =>
        simp only [Option.ite_none_left_eq_some,Option.some.injEq] at h
        exact h.2 ▸ .spuriousWrite
    | close b =>
      simp only [begin,Option.ite_none_right_eq_some] at h
      obtain ⟨hcloser,h⟩ := h
      split at h <;> obtain rfl := Option.some.inj h
      · rename_i hclosed
        exact .closedAgain hcloser hclosed
      · rename_i hopen
        exact .exchanges hcloser (by simpa using hopen)
    | closer =>
      simp only [closerStep] at h
      split at h
      · rename_i b hcloser
        exact Option.some.inj h ▸ .stores hcloser
      · rename_i hcloser
        exact Option.some.inj h ▸ .notifies hcloser
      · simp at h
  · simp at h

end Threads

end RootHelper
