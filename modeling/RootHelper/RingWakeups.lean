import RootHelper.RingThreads

/-!
Who is woken when the ring is closed, and what the threads rely on when a wait ends.
-/

set_option autoImplicit false

namespace RootHelper
open Posix Control

section Waiting

variable {α β : Type}

/-- It has found that it has to wait and does not wait yet. -/
def Place.willWait : Place α β → Bool
  | .checked _ => true
  | _ => false

/-- It waits and nobody has woken it. -/
def Place.waits : Place α β → Bool
  | .waiting _ => true
  | _ => false

@[simp] theorem Place.willWait_notified (p : Place α β) : p.notified.willWait = p.willWait := by
  cases p <;> rfl

@[simp] theorem Place.waits_notified (p : Place α β) : p.notified.waits = false := by
  cases p <;> rfl

@[simp] theorem RingCheck.waits_place (a : α) (check : RingCheck) :
    (check.place a : Place α β).waits = false := by
  cases check <;> rfl

theorem RingCheck.willWait_place {a : α} {check : RingCheck} (h : check ≠ .waits) :
    (check.place a : Place α β).willWait = false := by
  cases check with
  | waits => exact absurd rfl h
  | goes | ends => rfl

variable {call : RingCall α β} {side : Side} {ring : RingBuffer} {mutex : Option Side} {p : Place α β}
  {m : Moved α β}

theorem RingCall.move_closed (h : call.move side ring mutex p = some m)
    (hcopy : ∀ a, Moves RingBuffer.SameEnd (call.copy a)) : m.ring.closed = ring.closed := by
  rcases move_ring h with hsame | ⟨a,_,hring⟩
  · rw [hsame]
  · rw [hring]
    exact leaves_iff.mp (hcopy a ring)

theorem RingCall.move_keeps_on (h : call.move side ring mutex p = some m)
    (hcheck : call.check ring ≠ .waits) (hrecheck : call.recheck ring ≠ .waits)
    (hnext : ∀ a b p, call.next a b = .ok p → p.willWait = false ∧ p.waits = false)
    (hp : p.willWait = false) : m.place.willWait = false ∧ m.place.waits = false := by
  cases p with
  | out => simp [move] at h
  | waiting a => simp [move] at h
  | checked a => simp [Place.willWait] at hp
  | entered a =>
    simp only [move,Option.ite_none_right_eq_some,Option.some.injEq] at h
    rw [← h.2]
    exact ⟨rfl,rfl⟩
  | woken a =>
    simp only [move,Option.ite_none_right_eq_some,Option.some.injEq] at h
    rw [← h.2]
    exact ⟨rfl,rfl⟩
  | locked a =>
    simp only [move,Option.some.injEq] at h
    rw [← h]
    exact ⟨RingCheck.willWait_place hcheck,RingCheck.waits_place a _⟩
  | relocked a =>
    simp only [move,Option.some.injEq] at h
    rw [← h]
    exact ⟨RingCheck.willWait_place hrecheck,RingCheck.waits_place a _⟩
  | copying a =>
    unfold move at h
    cases hx : call.copy a ring <;> simp only [hx,Option.some.injEq] at h
    all_goals
      rw [← h]
      exact ⟨rfl,rfl⟩
  | copied a b | ended a =>
    simp only [move,Option.some.injEq] at h
    rw [← h]
    exact ⟨rfl,rfl⟩
  | returning a b =>
    unfold move at h
    cases hx : call.next a b with
    | ok p =>
      simp only [hx,Option.some.injEq] at h
      rw [← h]
      exact hnext a b p hx
    | error e =>
      simp only [hx,Option.some.injEq] at h
      rw [← h]
      exact ⟨rfl,rfl⟩

end Waiting

theorem readCall_goes_on {a : Nat} {b : Int × Str} {p : Place Nat (Int × Str)}
    (h : readCall.next a b = .ok p) : p.willWait = false ∧ p.waits = false := by
  have hp : Place.out = p := Except.ok.inj h
  rw [← hp]
  exact ⟨rfl,rfl⟩

theorem Writing.next_cases {w : Writing} {k : Int} {p : Place Writing Int} (h : w.next k = .ok p) :
    p = .out ∨ 0 < k ∧ w.buf.drop k.toNat ≠ [] ∧ w.record ≠ none ∧
      p = .entered { w with buf := w.buf.drop k.toNat } := by
  unfold next at h
  split at h
  · exact .inl (Except.ok.inj h).symm
  · rename_i size hrecord
    split at h
    · split at h
      · simp at h
      · exact .inl (Except.ok.inj h).symm
    · rename_i hpos
      simp only at h
      split at h
      · exact .inl (Except.ok.inj h).symm
      · rename_i hrest
        exact .inr ⟨by omega,hrest,by simp [hrecord],(Except.ok.inj h).symm⟩

theorem writeCall_goes_on {w : Writing} {k : Int} {p : Place Writing Int}
    (h : writeCall.next w k = .ok p) : p.willWait = false ∧ p.waits = false := by
  rcases Writing.next_cases h with rfl | ⟨_,_,_,rfl⟩ <;> exact ⟨rfl,rfl⟩

namespace Threads

/-- When `close` notifies, nobody is on the way to a wait and the writer does not wait. -/
def NobodyMissed (s : Threads) (act : ThreadAct) : Prop :=
  act = .closer → s.closer = .stored →
    s.reader.willWait = false ∧ s.writer.willWait = false ∧ s.writer.waits = false

def Notified (_ : Threads) (act : ThreadAct) : Prop := ∀ side, act ≠ .spurious side

structure Released (s : Threads) : Prop where
  opened : s.closer = .ready → s.ring.closed = false
  shut : s.closer ≠ .ready → s.ring.closed
  reader : s.closer = .completed → s.reader.willWait = false ∧ s.reader.waits = false
  writer : s.closer = .completed → s.writer.willWait = false ∧ s.writer.waits = false

variable {s t : Threads} {act : ThreadAct}

theorem checks_closed {ring : RingBuffer} (h : ring.closed) :
    readCall.check ring ≠ .waits ∧ readCall.recheck ring ≠ .waits ∧
      writeCall.check ring ≠ .waits ∧ writeCall.recheck ring ≠ .waits := by
  refine ⟨?_,?_,?_,?_⟩
  · simp only [readCall,RingBuffer.readCheck,h]
    split <;> simp
  · simp only [readCall,RingBuffer.readRecheck]
    split <;> simp
  · simp [writeCall,RingBuffer.writeCheck,h]
  · simp [writeCall,RingBuffer.writeRecheck,h]

theorem released_step (hs : s.Released) (hok : s.NobodyMissed act) (h : s.step act = some t) :
    t.Released := by
  obtain ⟨hopened,hshut,hreader,hwriter⟩ := hs
  obtain ⟨_,hcase⟩ := step_cases h
  cases hcase with
  | @reader m hm =>
    have hclosed : m.ring.closed = s.ring.closed :=
      RingCall.move_closed hm RingBuffer.sameEnd_readCopy
    refine ⟨fun hc => hclosed.trans (hopened hc),fun hc => hclosed.trans (hshut hc),?_,?_⟩
    · intro hc
      have hchecks := checks_closed (hshut (by simp [show s.closer = .completed from hc]))
      exact RingCall.move_keeps_on hm hchecks.1 hchecks.2.1 (fun _ _ _ => readCall_goes_on)
        (hreader hc).1
    · intro hc
      have hw := hwriter hc
      simp only [readerMoved]
      split
      · exact ⟨by rw [Place.willWait_notified,hw.1],Place.waits_notified _⟩
      · exact hw
  | @writer m hm =>
    have hclosed : m.ring.closed = s.ring.closed :=
      RingCall.move_closed hm fun w => RingBuffer.sameEnd_writeCopy w.buf
    refine ⟨fun hc => hclosed.trans (hopened hc),fun hc => hclosed.trans (hshut hc),?_,?_⟩
    · intro hc
      have hr := hreader hc
      simp only [writerMoved]
      split
      · exact ⟨by rw [Place.willWait_notified,hr.1],Place.waits_notified _⟩
      · exact hr
    · intro hc
      have hchecks := checks_closed (hshut (by simp [show s.closer = .completed from hc]))
      exact RingCall.move_keeps_on hm hchecks.2.2.1 hchecks.2.2.2 (fun _ _ _ => writeCall_goes_on)
        (hwriter hc).1
  | reads hout => exact ⟨hopened,hshut,fun _ => ⟨rfl,rfl⟩,hwriter⟩
  | writes hout => exact ⟨hopened,hshut,hreader,fun _ => ⟨rfl,rfl⟩⟩
  | spuriousRead =>
    refine ⟨hopened,hshut,fun hc => ?_,hwriter⟩
    exact ⟨by rw [Place.willWait_notified,(hreader hc).1],Place.waits_notified _⟩
  | spuriousWrite =>
    refine ⟨hopened,hshut,hreader,fun hc => ?_⟩
    exact ⟨by rw [Place.willWait_notified,(hwriter hc).1],Place.waits_notified _⟩
  | closedAgain hcloser hclosed =>
    -- only the call that has closed the ring finds it closed
    have hdone : s.closer = .completed := by
      rcases hcloser with hready | hdone
      · simp [hopened hready] at hclosed
      · exact hdone
    exact ⟨fun hc => by simp at hc,fun _ => hclosed,fun _ => hreader hdone,fun _ => hwriter hdone⟩
  | exchanges => exact ⟨fun hc => by simp at hc,fun _ => rfl,fun hc => by simp at hc,fun hc => by simp at hc⟩
  | stores hcloser =>
    have hclosed := hshut (by simp [hcloser])
    exact ⟨fun hc => by simp at hc,fun _ => hclosed,fun hc => by simp at hc,fun hc => by simp at hc⟩
  | notifies hcloser =>
    obtain ⟨hr,hw,hw'⟩ := hok rfl hcloser
    refine ⟨fun hc => by simp at hc,fun _ => hshut (by simp [hcloser]),fun _ => ?_,fun _ => ⟨hw,hw'⟩⟩
    exact ⟨by rw [Place.willWait_notified,hr],Place.waits_notified _⟩

/-- Once `close` is through nobody waits, when at each notification of it nobody was on the way to
a wait and the writer did not wait. -/
theorem close_releases_waiters {capacity : Int} {memory : Nat → Byte}
    (h : Reachable step NobodyMissed (new capacity memory) s) (hclosed : s.closer = .completed) :
    s.reader.waits = false ∧ s.writer.waits = false := by
  have hs : s.Released := by
    refine h.invariant ?_ fun _ _ _ => released_step
    exact ⟨fun _ => rfl,fun hc => absurd rfl hc,fun hc => by simp [new] at hc,
      fun hc => by simp [new] at hc⟩
  exact ⟨(hs.reader hclosed).2,(hs.writer hclosed).2⟩

instance (s : Threads) (act : ThreadAct) : Decidable (s.NobodyMissed act) :=
  inferInstanceAs (Decidable (act = _ → s.closer = _ → _ ∧ _ ∧ _))

instance (s : Threads) (act : ThreadAct) : Decidable (s.Notified act) :=
  decidable_of_iff (act ≠ .spurious .reader ∧ act ≠ .spurious .writer) <| by
    constructor
    · intro h side
      cases side
      · exact h.1
      · exact h.2
    · intro h
      exact ⟨h .reader,h .writer⟩

/-- A reader that waits on the empty ring is woken by `close`. -/
theorem close_releases_waiters_empty : ∃ s, Reachable step NobodyMissed (new 2 fun _ => 0) s ∧
    s.closer = .completed ∧ s.reader = .woken 1 ∧ s.reader.waits = false ∧
      s.writer.waits = false := by
  obtain ⟨s,hs,hp⟩ := @exists_reachable _ _ step NobodyMissed (new 2 fun _ => 0) _
    (fun s => s.closer = .completed ∧ s.reader = .woken 1)
    [.read 1,.reader,.reader,.reader,.close false,.closer,.closer] (by decide +kernel)
  simp only [decide_eq_true_eq] at hp
  exact ⟨s,hs,hp.1,hp.2,close_releases_waiters hs hp.1⟩

/-- In a run without spurious wake-ups `close` can miss a reader that is about to wait, and it
never wakes a writer that waits on the full ring. -/
theorem close_misses_waiters :
    (∃ s, Reachable step Notified (new 2 fun _ => 0) s ∧ s.closer = .completed ∧ s.reader.waits) ∧
    ∃ s, Reachable step Notified (new 2 fun _ => 0) s ∧ s.closer = .completed ∧ s.writer.waits := by
  constructor
  · obtain ⟨s,hs,hp⟩ := @exists_reachable _ _ step Notified (new 2 fun _ => 0) _
      (fun s => s.closer = .completed ∧ s.reader.waits)
      [.read 1,.reader,.reader,.close false,.closer,.closer,.reader] (by decide +kernel)
    simp only [decide_eq_true_eq] at hp
    exact ⟨s,hs,hp⟩
  · obtain ⟨s,hs,hp⟩ := @exists_reachable _ _ step Notified (new 2 fun _ => 0) _
      (fun s => s.closer = .completed ∧ s.writer.waits)
      [.tls_record_received [1,2],.writer,.writer,.writer,.writer,.writer,.writer,.writer,.writer,
        .close false,.closer,.closer] (by decide +kernel)
    simp only [decide_eq_true_eq] at hp
    exact ⟨s,hs,hp⟩

end Threads

/-! ### What the threads rely on after a wait -/

section Mutex

variable {α β : Type}

def Place.inside : Place α β → Bool
  | .out | .entered _ | .waiting _ | .woken _ => false
  | _ => true

@[simp] theorem Place.inside_notified (p : Place α β) : p.notified.inside = p.inside := by
  cases p <;> rfl

@[simp] theorem RingCheck.inside_place (a : α) (check : RingCheck) :
    (check.place a : Place α β).inside = true := by
  cases check <;> rfl

variable {call : RingCall α β} {side : Side} {ring : RingBuffer} {mutex : Option Side} {p : Place α β}
  {m : Moved α β}

theorem RingCall.move_mutex (h : call.move side ring mutex p = some m)
    (hmutex : mutex = some side ↔ p.inside) (hexited : m.exited = none)
    (hnext : ∀ a b p, call.next a b = .ok p → p.inside = false) :
    (m.mutex = some side ↔ m.place.inside) ∧
      ∀ other, other ≠ side → (m.mutex = some other ↔ mutex = some other) := by
  cases p with
  | out => simp [move] at h
  | waiting a => simp [move] at h
  | entered a | woken a =>
    simp only [move,Option.ite_none_right_eq_some,Option.some.injEq] at h
    obtain ⟨hfree,rfl⟩ := h
    refine ⟨by simp [Place.inside],fun other hother => ?_⟩
    simp [hfree,Ne.symm hother]
  | locked a | relocked a =>
    have hown := hmutex.mpr rfl
    simp only [move,Option.some.injEq] at h
    obtain rfl := h
    exact ⟨by simp [hown],fun other _ => Iff.rfl⟩
  | copied a b | ended a =>
    have hown := hmutex.mpr rfl
    simp only [move,Option.some.injEq] at h
    obtain rfl := h
    exact ⟨by simp [hown,Place.inside],fun other _ => Iff.rfl⟩
  | checked a =>
    have hown := hmutex.mpr rfl
    simp only [move,Option.some.injEq] at h
    obtain rfl := h
    refine ⟨by simp [Place.inside],fun other hother => ?_⟩
    simp [hown,Ne.symm hother]
  | copying a =>
    have hown := hmutex.mpr rfl
    unfold move at h
    cases hx : call.copy a ring <;> simp only [hx,Option.some.injEq] at h
    all_goals
      obtain rfl := h
      exact ⟨by simp [hown,Place.inside],fun other _ => Iff.rfl⟩
  | returning a b =>
    have hown := hmutex.mpr rfl
    unfold move at h
    cases hx : call.next a b with
    | ok p =>
      simp only [hx,Option.some.injEq] at h
      obtain rfl := h
      refine ⟨by simp [hnext a b p hx],fun other hother => ?_⟩
      simp [hown,Ne.symm hother]
    | error e =>
      simp only [hx,Option.some.injEq] at h
      obtain rfl := h
      simp at hexited

end Mutex

section Guards

variable {c : Nat} {rb rb' : RingBuffer}

/-- What holds where the reader is: it only copies from a ring that is not empty. -/
def ReadOk (rb : RingBuffer) : Place Nat (Int × Str) → Prop
  | .out => True
  | .copying count => 0 < count ∧ rb.readIdx ≠ rb.writeIdx
  | .copied count b => 0 < count ∧ 0 < b.1
  | .ended count => 0 < count ∧ rb.closed ∧ rb.readIdx = rb.writeIdx
  | .returning count b => 0 < count ∧ (b.1 ≤ 0 → rb.closed ∧ rb.readIdx = rb.writeIdx)
  | .entered count | .locked count | .checked count | .waiting count | .woken count
  | .relocked count => 0 < count

/-- Only an empty record has nothing to write. -/
def Writing.Ok (w : Writing) : Prop := ∀ size ∈ w.record, size < 2^64 ∧ (w.buf = [] → size = 0)

/-- What holds where the writer is: it only copies into a ring that is not full. -/
def WriteOk (rb : RingBuffer) : Place Writing Int → Prop
  | .out => True
  | .copying w => w.Ok ∧ rb.isFull = false
  | .copied w k => w.Ok ∧ (0 < k ∨ k = 0 ∧ w.buf = [])
  | .ended w => w.Ok ∧ rb.closed
  | .returning w k => w.Ok ∧ (0 < k ∨ k = 0 ∧ w.buf = [] ∨ k = -1 ∧ rb.closed)
  | .entered w | .locked w | .checked w | .waiting w | .woken w | .relocked w => w.Ok

theorem ReadOk.frame {p : Place Nat (Int × Str)} (h : ReadOk rb p) (hp : p.inside = false) :
    ReadOk rb' p := by
  cases p <;> first | exact h | simp [Place.inside] at hp

theorem WriteOk.frame {p : Place Writing Int} (h : WriteOk rb p) (hp : p.inside = false) :
    WriteOk rb' p := by
  cases p <;> first | exact h | simp [Place.inside] at hp

theorem ReadOk.notified {p : Place Nat (Int × Str)} (h : ReadOk rb p) : ReadOk rb p.notified := by
  cases p <;> exact h

theorem WriteOk.notified {p : Place Writing Int} (h : WriteOk rb p) : WriteOk rb p.notified := by
  cases p <;> exact h

theorem ReadOk.close {p : Place Nat (Int × Str)} (h : ReadOk rb p) :
    ReadOk { rb with closed := true } p := by
  cases p with
  | ended count => exact ⟨h.1,rfl,h.2.2⟩
  | returning count b => exact ⟨h.1,fun hb => ⟨rfl,(h.2 hb).2⟩⟩
  | _ => exact h

theorem WriteOk.close {p : Place Writing Int} (h : WriteOk rb p) :
    WriteOk { rb with closed := true } p := by
  cases p with
  | ended w => exact ⟨h.1,rfl⟩
  | returning w k => exact ⟨h.1,h.2.imp_right fun hk => hk.imp_right fun hk => ⟨hk.1,rfl⟩⟩
  | _ => exact h

theorem ReadOk.break {p : Place Nat (Int × Str)} {b : Bool} (h : ReadOk rb p) :
    ReadOk { rb with brokenConnection := b } p := by
  cases p <;> exact h

theorem WriteOk.break {p : Place Writing Int} {b : Bool} (h : WriteOk rb p) :
    WriteOk { rb with brokenConnection := b } p := by
  cases p <;> exact h

variable {r n : Nat} {mutex : Option Side}

theorem readOk_move {p : Place Nat (Int × Str)} {m : Moved Nat (Int × Str)}
    (hring : rb.Holds c r n) (hp : ReadOk rb p)
    (hguard : ∀ count, p = .relocked count → rb.closed ∨ rb.readIdx ≠ rb.writeIdx)
    (h : readCall.move .reader rb mutex p = some m) :
    ReadOk m.ring m.place ∧ m.exited = none ∧ ∃ r n, m.ring.Holds c r n := by
  cases p with
  | out => simp [RingCall.move] at h
  | waiting count => simp [RingCall.move] at h
  | entered count | woken count =>
    simp only [RingCall.move,Option.ite_none_right_eq_some,Option.some.injEq] at h
    rw [← h.2]
    exact ⟨hp,rfl,r,n,hring⟩
  | checked count =>
    simp only [RingCall.move,Option.some.injEq] at h
    rw [← h]
    exact ⟨hp,rfl,r,n,hring⟩
  | locked count =>
    simp only [RingCall.move,Option.some.injEq] at h
    rw [← h]
    refine ⟨?_,rfl,r,n,hring⟩
    change ReadOk rb (RingCheck.place count rb.readCheck)
    unfold RingBuffer.readCheck
    split
    · rename_i hempty
      split
      · rename_i hclosed
        exact ⟨hp,hclosed,hempty⟩
      · exact hp
    · rename_i hfull
      exact ⟨hp,hfull⟩
  | relocked count =>
    simp only [RingCall.move,Option.some.injEq] at h
    rw [← h]
    refine ⟨?_,rfl,r,n,hring⟩
    change ReadOk rb (RingCheck.place count rb.readRecheck)
    unfold RingBuffer.readRecheck
    split
    · rename_i hend
      exact ⟨hp,hend⟩
    · rename_i hgo
      refine ⟨hp,fun hempty => ?_⟩
      rcases hguard count rfl with hclosed | hne
      · exact hgo ⟨hclosed,hempty⟩
      · exact hne hempty
  | copying count =>
    obtain ⟨hcount,hne⟩ := hp
    have hn : 0 < n := Nat.pos_of_ne_zero fun hzero => hne (hring.empty_iff.mpr hzero)
    have hcopy : wp (RingBuffer.readCopy count)
        (fun b rb' => 0 < b.1 ∧ ∃ r n, rb'.Holds c r n) (fun _ _ => False) rb :=
      RingBuffer.wp_readCopy hring hn
        ⟨by simp only; omega,_,_,hring.advanced (Nat.min_le_right _ _)⟩
    obtain ⟨b,rb',hx,hpos,hholds⟩ := ok_of_wp hcopy
    unfold RingCall.move at h
    simp only [readCall,hx,Option.some.injEq] at h
    rw [← h]
    exact ⟨⟨hcount,hpos⟩,rfl,hholds⟩
  | copied count b =>
    simp only [RingCall.move,Option.some.injEq] at h
    rw [← h]
    refine ⟨⟨hp.1,fun hb => ?_⟩,rfl,r,n,hring⟩
    have hpos := hp.2
    omega
  | ended count =>
    simp only [RingCall.move,Option.some.injEq] at h
    rw [← h]
    exact ⟨⟨hp.1,fun _ => hp.2⟩,rfl,r,n,hring⟩
  | returning count b =>
    simp only [RingCall.move,readCall,Option.some.injEq] at h
    rw [← h]
    exact ⟨trivial,rfl,r,n,hring⟩

/-- What `writeAll` and `tls_record_received` make of a result the writer can get. -/
theorem Writing.next_ok {w : Writing} {k : Int} (hw : w.Ok)
    (hk : 0 < k ∨ k = 0 ∧ w.buf = [] ∨ k = -1 ∧ rb.closed) :
    ∃ p, w.next k = .ok p ∧ WriteOk rb' p ∧ p.inside = false := by
  unfold next
  split
  · exact ⟨.out,rfl,trivial,rfl⟩
  · rename_i size hrecord
    obtain ⟨hsize,hempty⟩ := hw size hrecord
    split
    · have hfits : ¬ sizeT k < size := by
        rcases hk with hpos | ⟨_,hbuf⟩ | ⟨hminus,_⟩
        · omega
        · rw [hempty hbuf]
          omega
        · rw [hminus]
          simp only [sizeT]
          omega
      rw [if_neg hfits]
      exact ⟨.out,rfl,trivial,rfl⟩
    · simp only
      split
      · exact ⟨.out,rfl,trivial,rfl⟩
      · rename_i hrest
        refine ⟨_,rfl,?_,rfl⟩
        intro size' hsize'
        obtain rfl := Option.some.inj (hrecord.symm.trans hsize')
        exact ⟨hsize,fun h => absurd h hrest⟩

theorem writeOk_move {p : Place Writing Int} {m : Moved Writing Int}
    (hring : rb.Holds c r n) (hp : WriteOk rb p)
    (hguard : ∀ w, p = .relocked w → rb.closed ∨ rb.isFull = false)
    (h : writeCall.move .writer rb mutex p = some m) :
    WriteOk m.ring m.place ∧ m.exited = none ∧ ∃ r n, m.ring.Holds c r n := by
  cases p with
  | out => simp [RingCall.move] at h
  | waiting w => simp [RingCall.move] at h
  | entered w | woken w =>
    simp only [RingCall.move,Option.ite_none_right_eq_some,Option.some.injEq] at h
    rw [← h.2]
    exact ⟨hp,rfl,r,n,hring⟩
  | checked w =>
    simp only [RingCall.move,Option.some.injEq] at h
    rw [← h]
    exact ⟨hp,rfl,r,n,hring⟩
  | locked w =>
    simp only [RingCall.move,Option.some.injEq] at h
    rw [← h]
    refine ⟨?_,rfl,r,n,hring⟩
    change WriteOk rb (RingCheck.place w rb.writeCheck)
    unfold RingBuffer.writeCheck
    split
    · rename_i hclosed
      exact ⟨hp,hclosed⟩
    · split
      · exact hp
      · rename_i hroom
        exact ⟨hp,by simpa using hroom⟩
  | relocked w =>
    simp only [RingCall.move,Option.some.injEq] at h
    rw [← h]
    refine ⟨?_,rfl,r,n,hring⟩
    change WriteOk rb (RingCheck.place w rb.writeRecheck)
    unfold RingBuffer.writeRecheck
    split
    · rename_i hclosed
      exact ⟨hp,hclosed⟩
    · rename_i hopen
      exact ⟨hp,(hguard w rfl).resolve_left hopen⟩
  | copying w =>
    obtain ⟨hw,hroom⟩ := hp
    have hroom' : n ≠ c-1 := fun hn => by simp [hring.isFull_iff.mpr hn] at hroom
    have hlt := hring.room
    have htaken : (w.buf.take (c-1-n)).length = min w.buf.length (c-1-n) := by
      rw [List.length_take,Nat.min_comm]
    have hnext := @RingBuffer.Holds.extended rb c r n (w.buf.take (c-1-n)) hring (by omega)
    rw [htaken] at hnext
    have hcopy : wp (RingBuffer.writeCopy w.buf)
        (fun k rb' => (0 < k ∨ k = 0 ∧ w.buf = []) ∧ ∃ r n, rb'.Holds c r n)
        (fun _ _ => False) rb := by
      refine RingBuffer.wp_writeCopy hring ⟨?_,_,_,hnext⟩
      by_cases hempty : w.buf = []
      · exact .inr ⟨by simp [hempty],hempty⟩
      · have hlen := List.length_pos_of_ne_nil hempty
        left
        omega
    obtain ⟨k,rb',hx,hk,hholds⟩ := ok_of_wp hcopy
    unfold RingCall.move at h
    simp only [writeCall,hx,Option.some.injEq] at h
    rw [← h]
    exact ⟨⟨hw,hk⟩,rfl,hholds⟩
  | copied w k =>
    simp only [RingCall.move,Option.some.injEq] at h
    rw [← h]
    exact ⟨⟨hp.1,hp.2.imp_right .inl⟩,rfl,r,n,hring⟩
  | ended w =>
    simp only [RingCall.move,Option.some.injEq] at h
    rw [← h]
    exact ⟨⟨hp.1,.inr (.inr ⟨rfl,hp.2⟩)⟩,rfl,r,n,hring⟩
  | returning w k =>
    obtain ⟨p,hx,hp',_⟩ := @Writing.next_ok rb rb w k hp.1 hp.2
    simp only [RingCall.move,writeCall,hx,Option.some.injEq] at h
    rw [← h]
    exact ⟨hp',rfl,r,n,hring⟩

end Guards

namespace Threads

/-- Reads ask for something, and where a wait has ended the ring is closed or what the thread has
waited for is there. -/
def GuardGone (s : Threads) : ThreadAct → Prop
  | .read count => 0 < count
  | .reader => ∀ count, s.reader = .relocked count →
      s.ring.closed ∨ s.ring.readIdx ≠ s.ring.writeIdx
  | .writer => ∀ w, s.writer = .relocked w → s.ring.closed ∨ s.ring.isFull = false
  | _ => True

structure Sound (c : Nat) (s : Threads) : Prop where
  ring : ∃ r n, s.ring.Holds c r n
  alive : s.exited = none
  readerMutex : s.mutex = some .reader ↔ s.reader.inside
  writerMutex : s.mutex = some .writer ↔ s.writer.inside
  reader : ReadOk s.ring s.reader
  writer : WriteOk s.ring s.writer

variable {c : Nat} {s t : Threads} {act : ThreadAct}

theorem sound_new {memory : Nat → Byte} (hc : 0 < c) (hfit : 3*c < 2^31) :
    (new c memory).Sound c where
  ring := ⟨0,0,rfl,rfl,by simp [new,RingBuffer.new],hc,hc,hfit⟩
  alive := rfl
  readerMutex := by simp [new,Place.inside]
  writerMutex := by simp [new,Place.inside]
  reader := trivial
  writer := trivial

theorem sound_step (hs : s.Sound c) (hok : s.GuardGone act) (h : s.step act = some t) :
    t.Sound c := by
  obtain ⟨_,hcase⟩ := step_cases h
  obtain ⟨⟨r,n,hring⟩,halive,hrm,hwm,hr,hw⟩ := hs
  cases hcase with
  | @reader m hm =>
    obtain ⟨hr',hexited,hring'⟩ := readOk_move hring hr hok hm
    obtain ⟨hown,hother⟩ := RingCall.move_mutex hm hrm hexited fun _ _ p hp => by
      have hout : Place.out = p := Except.ok.inj hp
      rw [← hout]
      rfl
    have hwinside : (s.readerMoved m).writer.inside = s.writer.inside := by
      simp only [readerMoved]
      split <;> simp
    refine ⟨hring',hexited,hown,?_,hr',?_⟩
    · rw [hwinside]
      exact (hother .writer (by simp)).trans hwm
    · -- the reader changes the ring only while the writer is out of it
      have hframe : WriteOk m.ring s.writer := by
        rcases RingCall.move_ring hm with hsame | ⟨count,hp,_⟩
        · rw [hsame]
          exact hw
        · have hmine : s.mutex = some .reader := hrm.mpr (by rw [hp]; rfl)
          refine hw.frame ?_
          cases hin : s.writer.inside with
          | false => rfl
          | true => simp [hmine] at hwm; simp [hwm] at hin
      simp only [readerMoved]
      split
      · exact hframe.notified
      · exact hframe
  | @writer m hm =>
    obtain ⟨hw',hexited,hring'⟩ := writeOk_move hring hw hok hm
    obtain ⟨hown,hother⟩ := RingCall.move_mutex hm hwm hexited fun w k p hp => by
      rcases Writing.next_cases hp with rfl | ⟨_,_,_,rfl⟩ <;> rfl
    have hrinside : (s.writerMoved m).reader.inside = s.reader.inside := by
      simp only [writerMoved]
      split <;> simp
    refine ⟨hring',hexited,?_,hown,?_,hw'⟩
    · rw [hrinside]
      exact (hother .reader (by simp)).trans hrm
    · have hframe : ReadOk m.ring s.reader := by
        rcases RingCall.move_ring hm with hsame | ⟨w,hp,_⟩
        · rw [hsame]
          exact hr
        · have hmine : s.mutex = some .writer := hwm.mpr (by rw [hp]; rfl)
          refine hr.frame ?_
          cases hin : s.reader.inside with
          | false => rfl
          | true => simp [hmine] at hrm; simp [hrm] at hin
      simp only [writerMoved]
      split
      · exact hframe.notified
      · exact hframe
  | reads hout =>
    rw [hout] at hrm
    exact ⟨⟨r,n,hring⟩,halive,hrm,hwm,hok,hw⟩
  | @writes w _ hout hsize hrecord =>
    rw [hout] at hwm
    refine ⟨⟨r,n,hring⟩,halive,hrm,hwm,hr,?_⟩
    intro size hs
    rcases hrecord with hnone | hsome
    · simp [hnone] at hs
    · obtain rfl := Option.some.inj (hsome.symm.trans hs)
      exact ⟨hsize,fun hempty => by rw [hempty]; rfl⟩
  | spuriousRead =>
    exact ⟨⟨r,n,hring⟩,halive,by rw [hrm,Place.inside_notified],hwm,hr.notified,hw⟩
  | spuriousWrite =>
    exact ⟨⟨r,n,hring⟩,halive,hrm,by rw [hwm,Place.inside_notified],hr,hw.notified⟩
  | closedAgain => exact ⟨⟨r,n,hring⟩,halive,hrm,hwm,hr,hw⟩
  | exchanges =>
    obtain ⟨hcap,hread,hwrite,hroom,hin,hfits⟩ := hring
    exact ⟨⟨r,n,hcap,hread,hwrite,hroom,hin,hfits⟩,halive,hrm,hwm,hr.close,hw.close⟩
  | stores =>
    obtain ⟨hcap,hread,hwrite,hroom,hin,hfits⟩ := hring
    exact ⟨⟨r,n,hcap,hread,hwrite,hroom,hin,hfits⟩,halive,hrm,hwm,hr.break,hw.break⟩
  | notifies =>
    exact ⟨⟨r,n,hring⟩,halive,by rw [hrm,Place.inside_notified],hwm,hr.notified,hw⟩

/-- When whatever is waited for is there at the end of each wait, or the ring is closed, no thread
takes the process down; reads that ask for something come back with nothing only from a closed and
empty ring, and a write of something to a ring that is open writes something. -/
theorem waits_are_safe {memory : Nat → Byte} (hc : 0 < c) (hfit : 3*c < 2^31)
    (h : Reachable step GuardGone (new c memory) s) :
    s.exited = none ∧
    (∀ count n bytes, s.reader = .returning count (n,bytes) → n ≤ 0 →
      s.ring.closed ∧ s.ring.content = []) ∧
    ∀ w n, s.writer = .returning w n → w.buf ≠ [] → s.ring.closed = false → 1 ≤ n := by
  have hs : s.Sound c := h.invariant (sound_new hc hfit) fun _ _ _ => sound_step
  obtain ⟨⟨r,k,hring⟩,halive,_,_,hr,hw⟩ := hs
  refine ⟨halive,?_,?_⟩
  · intro count n bytes hreader hn
    rw [hreader] at hr
    obtain ⟨hclosed,hempty⟩ := hr.2 hn
    refine ⟨hclosed,?_⟩
    rw [hring.content_eq,hring.empty_iff.mp hempty]
    rfl
  · intro w n hwriter hbuf hopen
    rw [hwriter] at hw
    rcases hw.2 with hpos | ⟨_,hempty⟩ | ⟨_,hclosed⟩
    · omega
    · exact absurd hempty hbuf
    · simp [hopen] at hclosed

instance (s : Threads) (act : ThreadAct) : Decidable (s.GuardGone act) :=
  match act with
  | .read count => inferInstanceAs (Decidable (0 < count))
  | .reader =>
    match hp : s.reader with
    | .relocked count =>
      decidable_of_iff (s.ring.closed ∨ s.ring.readIdx ≠ s.ring.writeIdx) <| by
        simp [GuardGone,hp]
    | .out | .entered _ | .locked _ | .checked _ | .waiting _ | .woken _ | .copying _
    | .copied _ _ | .ended _ | .returning _ _ => .isTrue fun count h => by simp [hp] at h
  | .writer =>
    match hp : s.writer with
    | .relocked w => decidable_of_iff (s.ring.closed ∨ s.ring.isFull = false) <| by
        simp [GuardGone,hp]
    | .out | .entered _ | .locked _ | .checked _ | .waiting _ | .woken _ | .copying _
    | .copied _ _ | .ended _ | .returning _ _ => .isTrue fun w h => by simp [hp] at h
  | .write _ | .tls_record_received _ | .close _ | .closer | .spurious _ => .isTrue trivial

/-- The reader waits, the writer brings a byte and the reader gets it. -/
theorem waits_are_safe_byte : ∃ s, Reachable step GuardGone (new 2 fun _ => 0) s ∧
    s.reader = .returning 1 (1,[7]) ∧ s.exited = none := by
  obtain ⟨s,hs,hp⟩ := @exists_reachable _ _ step GuardGone (new 2 fun _ => 0) _
    (fun s => s.reader = .returning 1 (1,[7]))
    [.read 1,.reader,.reader,.reader,.tls_record_received [7],.writer,.writer,.writer,.writer,
      .writer,.reader,.reader,.reader,.reader] (by decide +kernel)
  simp only [decide_eq_true_eq] at hp
  exact ⟨s,hs,hp,(waits_are_safe (by decide) (by decide) hs).1⟩

/-- A wait that ends by itself takes the process down: on the empty ring in `read`, on the full one
by a `write` that gives 0 on an open ring. A record without bytes wakes the reader of an empty ring
as well. -/
theorem waits_take_process_down :
    (∃ s, Reachable step (fun _ _ => True) (new 2 fun _ => 0) s ∧ s.exited = some (.exit 119)) ∧
    (∃ s w, Reachable step (fun _ _ => True) (new 2 fun _ => 0) s ∧ s.ring.closed = false ∧
      w.buf ≠ [] ∧ s.writer = .returning w 0) ∧
    (∃ s, Reachable step (fun _ _ => True) (new 2 fun _ => 0) s ∧ s.exited = some (.exit 91)) ∧
    ∃ s, Reachable step Notified (new 2 fun _ => 0) s ∧ s.exited = some (.exit 119) := by
  have empty := @exists_reachable _ _ step (fun _ _ => True) (new 2 fun _ => 0) _
    (fun s => s.exited = some (.exit 119))
    [.read 1,.reader,.reader,.reader,.spurious .reader,.reader,.reader,.reader] (by decide +kernel)
  have full := @exists_reachable _ _ step (fun _ _ => True) (new 2 fun _ => 0) _
    (fun s => s.ring.closed = false ∧ s.writer = .returning ⟨[2],some 2⟩ 0)
    [.tls_record_received [1,2],.writer,.writer,.writer,.writer,.writer,.writer,.writer,.writer,
      .spurious .writer,.writer,.writer,.writer,.writer] (by decide +kernel)
  have record := @exists_reachable _ _ step (fun _ _ => True) (new 2 fun _ => 0) _
    (fun s => s.exited = some (.exit 91))
    [.tls_record_received [1,2],.writer,.writer,.writer,.writer,.writer,.writer,.writer,.writer,
      .spurious .writer,.writer,.writer,.writer,.writer,.writer] (by decide +kernel)
  have nothing := @exists_reachable _ _ step Notified (new 2 fun _ => 0) _
    (fun s => s.exited = some (.exit 119))
    [.read 1,.reader,.reader,.reader,.tls_record_received [],.writer,.writer,.writer,.writer,
      .writer,.reader,.reader,.reader] (by decide +kernel)
  simp only [decide_eq_true_eq] at empty full record nothing
  obtain ⟨s,hs,hopen,hwriter⟩ := full
  exact ⟨empty,⟨s,_,hs,hopen,by simp,hwriter⟩,record,nothing⟩

end Threads
end RootHelper
