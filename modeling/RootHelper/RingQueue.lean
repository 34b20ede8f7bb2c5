import RootHelper.RingBuffer

/-!
The ring buffer, used one operation at a time, is a queue of bytes with one cell less than its
capacity.
-/

set_option autoImplicit false

namespace RootHelper
open Posix Control

/-- The bytes in the queue and, once it was closed, whether by a broken connection. -/
structure Queue where
  content : Str
  ended : Option Bool

inductive RingOp where
  | read (count : Nat)
  | write (buf : Str)
  | close (broken : Bool)
  | reset
  deriving DecidableEq, Repr

/-- What an operation gives; one that would wait does nothing. -/
inductive RingOut where
  | waits
  | bytes (n : Int) (s : Str)
  | count (n : Int)
  | done
  deriving DecidableEq, Repr

namespace Queue

/-- The result at the end of the stream: -1 when the connection was broken. -/
def eof (broken : Bool) : Int := if broken then -1 else 0

def read (count : Nat) (q : Queue) : RingOut × Queue :=
  if q.content = [] then
    match q.ended with
    | none => (.waits,q)
    | some broken => (.bytes (eof broken) [],q)
  else (.bytes (q.content.take count).length (q.content.take count),
    { q with content := q.content.drop count })

def write (bound : Nat) (buf : Str) (q : Queue) : RingOut × Queue :=
  if q.ended.isSome then (.count (-1),q)
  else if q.content.length = bound then (.waits,q)
  else
    let taken := buf.take (bound - q.content.length)
    (.count taken.length,{ q with content := q.content ++ taken })

def close (broken : Bool) (q : Queue) : Queue := { q with ended := some (q.ended.getD broken) }

def step (bound : Nat) : RingOp → Queue → RingOut × Queue
  | .read count, q => q.read count
  | .write buf, q => q.write bound buf
  | .close broken, q => (.done,q.close broken)
  | .reset, _ => (.done,⟨[],none⟩)

def run (bound : Nat) : List RingOp → Queue → List RingOut × Queue
  | [], q => ([],q)
  | op :: ops, q =>
    let (out,q') := q.step bound op
    let (outs,q'') := run bound ops q'
    (out :: outs,q'')

end Queue

def RingOp.run : RingOp → RingM RingOut
  | read count => do
    match ← RingBuffer.read count with
    | some (n,s) => pure (.bytes n s)
    | none => pure .waits
  | write buf => do
    match ← RingBuffer.write buf with
    | some n => pure (.count n)
    | none => pure .waits
  | close broken => do
    RingBuffer.close broken
    pure .done
  | reset => do
    RingBuffer.reset
    pure .done

def RingBuffer.runAll : List RingOp → RingM (List RingOut)
  | [] => pure []
  | op :: ops => do
    let out ← op.run
    let outs ← runAll ops
    pure (out :: outs)

/-- The bytes the writes have taken and the reads have given since the last reset. -/
structure Ledger where
  accepted : Str
  given : Str

def Ledger.after (led : Ledger) : RingOp → RingOut → Ledger
  | .read _, .bytes _ s => { led with given := led.given ++ s }
  | .write buf, .count n => { led with accepted := led.accepted ++ buf.take n.toNat }
  | .reset, _ => ⟨[],[]⟩
  | _, _ => led

def Ledger.of (ops : List RingOp) (outs : List RingOut) : Ledger :=
  (ops.zip outs).foldl (fun led e => led.after e.1 e.2) ⟨[],[]⟩

/-- The ring of capacity `c` is in the state the queue is in. -/
structure Refines (c : Nat) (rb : RingBuffer) (q : Queue) : Prop where
  holds : ∃ r n, rb.Holds c r n
  content : rb.content = q.content
  closed : rb.closed = q.ended.isSome
  broken : ∀ b, q.ended = some b → rb.brokenConnection = b

section Steps

variable {c : Nat} {rb : RingBuffer} {q : Queue} {E : RingFault → RingBuffer → Prop}

theorem RingBuffer.Holds.length {r n : Nat} (h : rb.Holds c r n) : rb.content.length = n := by
  rw [h.content_eq,Circular.length_window]

theorem refines_new (hc : 2 ≤ c) (hfit : 3*c < 2^31) (memory : Nat → Byte) :
    Refines c (.new c memory) ⟨[],none⟩ := by
  have h : (RingBuffer.new c memory).Holds c 0 0 :=
    ⟨rfl,rfl,by simp [RingBuffer.new],by omega,by omega,hfit⟩
  exact ⟨⟨0,0,h⟩,List.length_eq_zero_iff.mp h.length,rfl,fun _ h => by simp at h⟩

theorem Refines.length_le (h : Refines c rb q) : q.content.length ≤ c-1 := by
  obtain ⟨r,n,hh⟩ := h.holds
  have hroom := hh.room
  rw [← h.content,hh.length]
  omega

theorem Refines.eof_eq (h : Refines c rb q) {b : Bool} (hb : q.ended = some b) :
    rb.eof = Queue.eof b := by
  simp [RingBuffer.eof,Queue.eof,h.broken b hb]

theorem wp_read {count : Nat} (h : Refines c rb q) :
    wp (RingOp.read count).run
      (fun out rb' => out = (q.read count).1 ∧ Refines c rb' (q.read count).2) E rb := by
  obtain ⟨r,n,hh⟩ := h.holds
  have hlen := hh.length
  rw [h.content] at hlen
  simp only [RingOp.run,RingBuffer.read,wp_bind,wp_get]
  unfold Queue.read
  by_cases hempty : q.content = []
  · have hzero : n = 0 := by rw [← hlen,hempty,List.length_nil]
    rw [if_pos (hh.empty_iff.mpr hzero),if_pos hempty]
    cases hend : q.ended with
    | none =>
      have hopen : ¬ rb.closed := by simp [h.closed,hend]
      rw [if_neg hopen]
      exact ⟨rfl,h⟩
    | some b =>
      have hclosed : rb.closed := by simp [h.closed,hend]
      rw [if_pos hclosed,h.eof_eq hend]
      exact ⟨rfl,h⟩
  · have hpos : 0 < n := by
      rw [← hlen]
      exact List.length_pos_of_ne_nil hempty
    have hne : ¬ rb.readIdx = rb.writeIdx := fun he => by
      have hzero := hh.empty_iff.mp he
      omega
    rw [if_neg hne,if_neg hempty,wp_map]
    refine RingBuffer.wp_readCopy hh hpos ⟨?_,?_⟩
    · rw [h.content,List.length_take,hlen]
    · have hmin : min count n ≤ n := Nat.min_le_right _ _
      have hnext := hh.advanced hmin
      refine ⟨⟨_,_,hnext⟩,?_,h.closed,h.broken⟩
      rw [hnext.content_eq]
      simp only
      rw [← Circular.window_drop hmin,← hh.content_eq,h.content]
      by_cases hle : count ≤ n
      · rw [Nat.min_eq_left hle]
      · rw [Nat.min_eq_right (by omega),List.drop_eq_nil_of_le (by omega),
          List.drop_eq_nil_of_le (by omega)]

theorem wp_write {buf : Str} (h : Refines c rb q) :
    wp (RingOp.write buf).run
      (fun out rb' => out = (q.write (c-1) buf).1 ∧ Refines c rb' (q.write (c-1) buf).2) E rb := by
  obtain ⟨r,n,hh⟩ := h.holds
  have hlen := hh.length
  rw [h.content] at hlen
  simp only [RingOp.run,RingBuffer.write,wp_bind,wp_get]
  unfold Queue.write
  rw [h.closed]
  by_cases hend : q.ended.isSome
  · rw [if_pos hend,if_pos hend]
    exact ⟨rfl,h⟩
  · rw [if_neg hend,if_neg hend]
    by_cases hfull : n = c-1
    · rw [if_pos (hh.isFull_iff.mpr hfull),if_pos (hlen.trans hfull)]
      exact ⟨rfl,h⟩
    · have hfull' : ¬ rb.isFull := fun hf => hfull (hh.isFull_iff.mp hf)
      rw [if_neg hfull',if_neg (fun he => hfull (hlen.symm.trans he)),wp_map,hlen]
      have hroom := hh.room
      have htaken : (buf.take (c-1-n)).length = min buf.length (c-1-n) := by
        rw [List.length_take,Nat.min_comm]
      have hfits : n + (buf.take (c-1-n)).length < c := by omega
      have hnext := hh.extended hfits
      rw [htaken] at hnext
      refine RingBuffer.wp_writeCopy hh ⟨?_,⟨_,_,hnext⟩,?_,h.closed,h.broken⟩
      · simp only [htaken]
      · rw [hnext.content_eq,← htaken]
        simp only
        rw [Circular.window_putAround hh.inside (by omega),← hh.content_eq,h.content]

theorem wp_close {b : Bool} (h : Refines c rb q) :
    wp (RingOp.close b).run (fun out rb' => out = .done ∧ Refines c rb' (q.close b)) E rb := by
  obtain ⟨r,n,hh⟩ := h.holds
  simp only [RingOp.run,RingBuffer.close,wp_bind,wp_get]
  unfold Queue.close
  cases hend : q.ended with
  | none =>
    have hopen : ¬ rb.closed := by simp [h.closed,hend]
    rw [if_neg hopen]
    refine ⟨rfl,⟨r,n,hh.capacity,hh.readIdx,hh.writeIdx,hh.room,hh.inside,hh.fits⟩,h.content,rfl,?_⟩
    intro b' hb'
    simpa using hb'
  | some b' =>
    have hclosed : rb.closed := by simp [h.closed,hend]
    rw [if_pos hclosed]
    refine ⟨rfl,h.holds,h.content,hclosed,?_⟩
    intro b'' hb''
    exact h.broken b'' (hend.trans (by simpa using hb''))

theorem wp_reset (h : Refines c rb q) :
    wp RingOp.reset.run (fun out rb' => out = .done ∧ Refines c rb' ⟨[],none⟩) E rb := by
  obtain ⟨r,n,hh⟩ := h.holds
  have hroom := hh.room
  have hh' : { rb with readIdx := 0, writeIdx := 0, closed := false }.Holds c 0 0 :=
    ⟨hh.capacity,rfl,by simp,by omega,by omega,hh.fits⟩
  rw [RingOp.run,wp_bind,RingBuffer.reset,wp_modify,wp_pure]
  exact ⟨rfl,⟨0,0,hh'⟩,List.length_eq_zero_iff.mp hh'.length,rfl,fun _ h => by simp at h⟩

theorem wp_step {op : RingOp} (h : Refines c rb q) :
    wp op.run (fun out rb' => out = (q.step (c-1) op).1 ∧ Refines c rb' (q.step (c-1) op).2) E rb := by
  cases op with
  | read count => exact wp_read h
  | write buf => exact wp_write h
  | close b => exact wp_close h
  | reset => exact wp_reset h

theorem wp_runAll {ops : List RingOp} (h : Refines c rb q) :
    wp (RingBuffer.runAll ops) (fun outs rb' => outs = (Queue.run (c-1) ops q).1 ∧
      Refines c rb' (Queue.run (c-1) ops q).2) E rb := by
  induction ops generalizing rb q with
  | nil => exact ⟨rfl,h⟩
  | cons op ops ih =>
    rw [RingBuffer.runAll,wp_bind]
    refine wp_mono (wp_step h) (fun out rb' hstep => ?_) fun _ _ h => h
    obtain ⟨rfl,hnext⟩ := hstep
    rw [wp_bind]
    refine wp_mono (ih hnext) (fun outs rb'' hrest => ?_) fun _ _ h => h
    obtain ⟨rfl,hlast⟩ := hrest
    exact ⟨rfl,hlast⟩

/-- The queue gives the bytes it took in their order, and holds what it has not given. -/
theorem ledger_step {bound : Nat} {led : Ledger} (op : RingOp)
    (h : led.accepted = led.given ++ q.content) :
    (led.after op (q.step bound op).1).accepted =
      (led.after op (q.step bound op).1).given ++ (q.step bound op).2.content := by
  cases op with
  | read count =>
    change (led.after _ (q.read count).1).accepted = (led.after _ (q.read count).1).given ++
      (q.read count).2.content
    unfold Queue.read
    split
    · cases q.ended with
      | none => exact h
      | some b => simpa [Ledger.after] using h
    · simp only [Ledger.after,List.append_assoc,List.take_append_drop]
      exact h
  | write buf =>
    change (led.after _ (q.write bound buf).1).accepted =
      (led.after _ (q.write bound buf).1).given ++ (q.write bound buf).2.content
    unfold Queue.write
    split
    · simpa [Ledger.after] using h
    · split
      · exact h
      · have htaken : ∀ k, buf.take (buf.take k).length = buf.take k := fun k => by
          rw [List.take_eq_take_iff,List.length_take]
          omega
        simp only [Ledger.after,Int.toNat_natCast,h,List.append_assoc,htaken]
  | close b => exact h
  | reset => rfl

theorem ledger_run {bound : Nat} {ops : List RingOp} {led : Ledger}
    (h : led.accepted = led.given ++ q.content) :
    let led' := (ops.zip (Queue.run bound ops q).1).foldl (fun led e => led.after e.1 e.2) led
    led'.accepted = led'.given ++ (Queue.run bound ops q).2.content := by
  induction ops generalizing led q with
  | nil => exact h
  | cons op ops ih => exact ih (ledger_step op h)

/-- After any operations on a new ring none has gone wrong, each gave what a queue of `c-1` bytes
gives, what was read is the front of what was written and the ring holds the rest; and reads end
the stream only on a closed and empty ring, as its first close since the reset tells. -/
theorem ring_refines_queue {c : Nat} (hc : 2 ≤ c) (hfit : 3*c < 2^31) (memory : Nat → Byte)
    (ops : List RingOp) :
    ∃ outs rb q, RingBuffer.runAll ops (.new c memory) = .ok outs rb ∧
      Queue.run (c-1) ops ⟨[],none⟩ = (outs,q) ∧ Refines c rb q ∧ q.content.length ≤ c-1 ∧
      (Ledger.of ops outs).accepted = (Ledger.of ops outs).given ++ rb.content ∧
      (0 ≤ rb.readIdx ∧ rb.readIdx < c) ∧ (0 ≤ rb.writeIdx ∧ rb.writeIdx < c) ∧
      ∀ count n s rb', 0 < count → RingBuffer.read count rb = .ok (some (n,s)) rb' → n ≤ 0 →
        rb.closed ∧ rb.content = [] ∧ ∃ b, q.ended = some b ∧ n = Queue.eof b := by
  have hrun := @wp_runAll c _ _ (fun _ _ => False) ops (refines_new hc hfit memory)
  unfold wp at hrun
  cases hx : RingBuffer.runAll ops (.new c memory) with
  | error e rb => simp [hx] at hrun
  | ok outs rb =>
    rw [hx] at hrun
    obtain ⟨rfl,hrefines⟩ := hrun
    obtain ⟨r,n,hh⟩ := hrefines.holds
    have hwrite : (r + n) % c < c := Nat.mod_lt _ (by omega)
    have hinside := hh.inside
    refine ⟨_,rb,_,rfl,rfl,hrefines,hrefines.length_le,?_,?_,?_,?_⟩
    · rw [hrefines.content]
      exact ledger_run rfl
    · rw [hh.readIdx]
      omega
    · rw [hh.writeIdx]
      omega
    · intro count n s rb' hcount hread hn
      have hstep := @wp_read c rb _ (fun _ _ => False) count hrefines
      simp only [RingOp.run,wp_bind] at hstep
      unfold wp at hstep
      rw [hread] at hstep
      obtain ⟨hout,_⟩ := hstep
      generalize (Queue.run (c-1) ops ⟨[],none⟩).2 = q at hrefines hout
      unfold Queue.read at hout
      split at hout
      · rename_i hempty
        refine ⟨?_,hrefines.content.trans hempty,?_⟩
        · cases hend : q.ended with
          | none => simp [hend] at hout
          | some b => simp [hrefines.closed,hend]
        · cases hend : q.ended with
          | none => simp [hend] at hout
          | some b =>
            simp only [hend,RingOut.bytes.injEq] at hout
            exact ⟨b,rfl,hout.1⟩
      · rename_i hempty
        have hpos : 0 < q.content.length := List.length_pos_of_ne_nil hempty
        simp only [RingOut.bytes.injEq,List.length_take] at hout
        omega

/-- A ring of two bytes and one free cell: the second write wraps around. -/
theorem ring_refines_queue_three :
    ∃ outs rb q, RingBuffer.runAll
        [.write [1,2,3],.read 1,.write [4,5],.close true,.read 9,.read 1] (.new 3 fun _ => 0) =
          .ok outs rb ∧
      Queue.run 2 [.write [1,2,3],.read 1,.write [4,5],.close true,.read 9,.read 1] ⟨[],none⟩ =
        (outs,q) ∧ Refines 3 rb q := by
  obtain ⟨outs,rb,q,hring,hqueue,hrefines,_⟩ := ring_refines_queue (show 2 ≤ 3 by decide)
    (by decide) (fun _ => 0) [.write [1,2,3],.read 1,.write [4,5],.close true,.read 9,.read 1]
  exact ⟨outs,rb,q,hring,hqueue,hrefines⟩

/-- What that run gives. -/
example : (Queue.run 2 [.write [1,2,3],.read 1,.write [4,5],.close true,.read 9,.read 1] ⟨[],none⟩).1 =
    [.count 2,.bytes 1 [1],.count 1,.done,.bytes 2 [2,4],.bytes (-1) []] := by decide

end Steps

end RootHelper
