import RootHelper.LockfreeWrites

/-!
The ring buffer without a mutex between its threads, in every order of their accesses: one that
reads, one that writes, and any number of them that close it, each making one call after the other.
-/

set_option autoImplicit false

namespace RootHelper
open Posix Control LockfreeRing

inductive LockfreeThread where
  | reader
  | writer
  | closer (n : Nat)
  deriving DecidableEq, Repr

namespace LockfreeThread

/-- How much is to be read, what is to be written. -/
abbrev Call : LockfreeThread → Type
  | reader => Nat
  | writer => Str
  | closer _ => Unit

abbrev Result : LockfreeThread → Type
  | reader => Int × Str
  | writer => Int
  | closer _ => Unit

def code (capacity : Int) : (i : LockfreeThread) → Call i → LockfreeM (Result i)
  | reader, count => read capacity count
  | writer, buf => write capacity buf
  | closer _, _ => LockfreeRing.close

end LockfreeThread

abbrev LockfreePool :=
  Pool LockfreeOp LockfreeOp.Answer LockfreeFault LockfreeRing LockfreeThread.Call LockfreeThread.Result

def bytesRead (l : List (Nat × Int × Str)) : Str := l.flatMap fun r => r.2.2

def bytesWritten (l : List (Str × Int)) : Str := l.flatMap fun w => w.1.take w.2.toNat

namespace LockfreePool

def received (s : LockfreePool) : Str := bytesRead (s.done .reader)

def accepted (s : LockfreePool) : Str := bytesWritten (s.done .writer)

def writing (s : LockfreePool) : Str :=
  match s.place .writer with
  | some (buf,_) => buf
  | none => []

/-- What can be read, from the reader's index up to the writer's. -/
def content (c : Nat) (s : LockfreePool) : Str :=
  Circular.window c s.shared.ringbuffer s.shared.readIdx.toNat
    ((s.shared.writeIdx - s.shared.readIdx + c) % c).toNat

/-- What threads of `moving` come to from `s₀`. -/
abbrev Reaches (c : Nat) (moving : LockfreeThread → Prop) (s₀ s : LockfreePool) : Prop :=
  Pool.Reachable (LockfreeOp.perform c) (LockfreeThread.code c) moving s₀ s

def calls (i : LockfreeThread) (a : LockfreeThread.Call i) (n : Nat) : List (PoolAct LockfreeThread.Call) :=
  .call i a :: List.replicate n (.turn i)

def trial (c : Nat) (acts : List (PoolAct LockfreeThread.Call)) : Option LockfreePool :=
  (Pool.start (LockfreeRing.new fun _ => 0)).runs (LockfreeOp.perform c) (LockfreeThread.code c) acts

def later (c : Nat) (s : LockfreePool) (acts : List (PoolAct LockfreeThread.Call)) : Option LockfreePool :=
  s.runs (LockfreeOp.perform c) (LockfreeThread.code c) acts

theorem later_trial (c : Nat) (acts more : List (PoolAct LockfreeThread.Call))
    (P : LockfreePool → LockfreePool → Prop) [∀ s t, Decidable (P s t)]
    (h : ((trial c acts).bind fun s => (later c s more).map fun t => decide (P s t)) = some true) :
    ∃ s t, trial c acts = some s ∧ later c s more = some t ∧ P s t := by
  obtain ⟨s,hs,ht⟩ := Option.bind_eq_some_iff.mp h
  obtain ⟨t,ht,hst⟩ := Option.map_eq_some_iff.mp ht
  exact ⟨s,t,hs,ht,of_decide_eq_true hst⟩

theorem reaches_trial {c : Nat} {acts : List (PoolAct LockfreeThread.Call)} {s : LockfreePool}
    (h : trial c acts = some s) :
    Reaches c (fun _ => True) (Pool.start (LockfreeRing.new fun _ => 0)) s :=
  Pool.reachable_runs h fun _ _ => trivial

end LockfreePool

open LockfreeThread LockfreePool

section Threads

variable {c : Nat}

def sees : LockfreeThread → Tracked c → Tracked c → Prop
  | reader => ReaderSees
  | writer => WriterSees
  | closer _ => CloserSees

/-- What a thread does, in a call after those of `l`. -/
def does : (i : LockfreeThread) → List (Call i × Result i) → Call i → LockfreeOp →
    Tracked c → Tracked c → Prop
  | reader, _, _ => ReaderDoes
  | writer, l, buf => WriterDoes (bytesWritten l ++ buf)
  | closer _, _, _ => CloserDoes

/-- What the calls of `l` have come to, with `more` of the reads. -/
def after (more : List (Nat × Int × Str) → Tracked c → Prop) :
    (i : LockfreeThread) → List (Call i × Result i) → Tracked c → Prop
  | reader, l, t => bytesRead l = t.sent.take t.taken ∧ more l t
  | writer, l, t => t.sent = bytesWritten l
  | closer _, _, _ => True

/-- A property of the reads and the ring that every read keeps, and what happens between the reads. -/
structure OfReads (more : List (Nat × Int × Str) → Tracked c → Prop) : Prop where
  stable : ∀ l t u, more l t → ReaderSees t u → more l u
  step : ∀ l t u count r, more l t → ReadDone t count r u → more (l ++ [(count,r)]) u

/-- What holds during a call after those of `l`. -/
def during : (i : LockfreeThread) → List (Call i × Result i) → Call i → Tracked c → Prop
  | reader, l, _, t => bytesRead l <+: t.sent
  | writer, l, buf, t => bytesWritten l <+: t.sent ∧ t.sent <+: bytesWritten l ++ buf
  | closer _, _, _, _ => True

theorem sees_refl (i : LockfreeThread) : Std.Refl (sees (c := c) i) := by
  cases i <;> (unfold sees; infer_instance)

theorem sees_trans (i : LockfreeThread) : IsTrans (Tracked c) (sees i) := by
  cases i <;> (unfold sees; infer_instance)

theorem sees_others (i : LockfreeThread) (l : List (Call i × Result i)) (a : Call i)
    (j : LockfreeThread) (o : LockfreeOp) (t u : Tracked c) (hij : i ≠ j) (h : does i l a o t u) :
    sees j t u := by
  cases j with
  | closer n => trivial
  | reader =>
    cases i with
    | reader => exact absurd rfl hij
    | writer => exact h.sees
    | closer n => exact h.reader
  | writer =>
    cases i with
    | reader => exact h.sees
    | writer => exact absurd rfl hij
    | closer n => exact h.writer

theorem bytesRead_concat (l : List (Nat × Int × Str)) (r : Nat × Int × Str) :
    bytesRead (l ++ [r]) = bytesRead l ++ r.2.2 := by simp [bytesRead]

theorem bytesWritten_concat (l : List (Str × Int)) (w : Str × Int) :
    bytesWritten (l ++ [w]) = bytesWritten l ++ w.1.take w.2.toNat := by simp [bytesWritten]

theorem ReadDone.after_read {l : List (Nat × Int × Str)} {t u : Tracked c} {count : Nat}
    {r : Int × Str} (hl : bytesRead l = t.sent.take t.taken) (h : ReadDone t count r u) :
    bytesRead (l ++ [(count,r)]) = u.sent.take u.taken := by
  obtain ⟨more,hmore⟩ := h.took.sent
  have hle := t.taken_le
  have hsame : u.sent.take t.taken = t.sent.take t.taken := by
    rw [← hmore,List.take_append_of_le_length hle]
  rw [bytesRead_concat,hl,h.took.taken,List.take_add,hsame]
  exact congrArg _ h.bytes

variable {more : List (Nat × Int × Str) → Tracked c → Prop}

theorem lockfree_compatible (fits : 3*c < 2^31) (hmore : OfReads more) :
    Compatible (LockfreeOp.perform c) (code c) Tracked.ring sees does (after more) during
      fun _ => True where
  refl := sees_refl
  trans := sees_trans
  others i l a j o t u _ := sees_others i l a j o t u
  stable i l t u hl h := by
    cases i with
    | reader =>
      obtain ⟨hread,hl⟩ := hl
      refine ⟨?_,hmore.stable l t u hl h⟩
      obtain ⟨bs,hbs⟩ := h.sent
      rw [hread,h.taken,← hbs,List.take_append_of_le_length t.taken_le]
    | writer => exact h.sent.trans hl
    | closer n => trivial
  stableDuring i l a t u hl h := by
    cases i with
    | reader => exact hl.trans h.sent
    | writer =>
      change _ <+: u.sent ∧ u.sent <+: _
      rw [h.sent]
      exact hl
    | closer n => trivial
  starts i l a t _ hl := by
    cases i with
    | reader =>
      change bytesRead l <+: _
      rw [hl.1]
      exact List.take_prefix _ _
    | writer =>
      change _ <+: t.sent ∧ t.sent <+: _
      rw [show t.sent = _ from hl]
      exact ⟨List.prefix_rfl,List.prefix_append _ _⟩
    | closer n => trivial
  own i l a o t u _ hl h := by
    cases i with
    | reader =>
      change _ <+: u.sent
      rw [h.sees.sent]
      exact hl
    | writer => exact ⟨hl.1.trans h.sees.sent,h.within hl.2⟩
    | closer n => trivial
  safe i l a t _ hl := by
    cases i with
    | reader =>
      exact (reader_read fits a).mono fun r u hr => ⟨hr.after_read hl.1,hmore.step l t u a r hl.2 hr⟩
    | writer =>
      change t.sent = _ at hl
      refine (writer_write fits (by rw [hl])).mono fun r u hr => ?_
      change u.sent = _
      rw [hr.sent,hl,bytesWritten_concat]
    | closer n => exact closer_close

end Threads

namespace LockfreePool

variable {c : Nat} {memory : Nat → Byte} {s : LockfreePool}

abbrev Agrees (more : List (Nat × Int × Str) → Tracked c → Prop) (s : LockfreePool) (t : Tracked c) :
    Prop :=
  s.Sound (LockfreeOp.perform c) Tracked.ring sees does (after more) during t

theorem ofReads_true : OfReads (c := c) fun _ _ => True := ⟨fun _ _ _ _ _ => trivial,fun _ _ _ _ _ _ _ => trivial⟩

theorem agrees_start (hc : 0 < c) :
    Agrees (fun _ _ => True) (Pool.start (LockfreeRing.new memory)) (Tracked.start hc memory) :=
  ⟨rfl,rfl,fun i => by cases i <;> simp [PlaceSound,Pool.start,after,bytesRead,bytesWritten,Tracked.start]⟩

theorem reaches_agrees (hc : 0 < c) (fits : 3*c < 2^31)
    (h : Reaches c (fun _ => True) (Pool.start (LockfreeRing.new memory)) s) :
    ∃ t : Tracked c, Agrees (fun _ _ => True) s t :=
  h.sound (lockfree_compatible fits ofReads_true) (agrees_start hc)

variable {more : List (Nat × Int × Str) → Tracked c → Prop}

theorem Agrees.tell {t : Tracked c} (h : Agrees (fun _ _ => True) s t) (hidle : s.place .reader = none)
    (hm : more (s.done .reader) t) : Agrees more s t := by
  refine ⟨h.1,h.2.1,fun i => ?_⟩
  have hi := h.2.2 i
  cases i with
  | reader =>
    simp only [PlaceSound,hidle] at hi ⊢
    exact ⟨hi.1,hm⟩
  | writer => exact hi
  | closer n => exact hi

theorem Agrees.accepted_prefix {t : Tracked c} (h : Agrees more s t) : s.accepted <+: t.sent := by
  have hwriter := h.2.2 .writer
  cases hplace : s.place .writer with
  | none =>
    simp only [PlaceSound,hplace] at hwriter
    rw [accepted,show t.sent = _ from hwriter]
  | some place =>
    simp only [PlaceSound,hplace] at hwriter
    exact hwriter.1.1

theorem content_eq {t : Tracked c} (h : Agrees more s t) : content c s = t.sent.drop t.taken := by
  have hring : s.shared = t.ring := h.2.1.symm
  have hlen := t.sent_length
  have havail := t.avail_lt
  have hdistance : ((t.ring.writeIdx - t.ring.readIdx + c) % c).toNat = t.avail := by
    have hat := t.write_at
    have hr := Nat.mod_lt t.taken t.cap_pos
    rw [t.writeIdx,t.readIdx,Int.add_emod_right,hat]
    split
    · rw [Int.emod_eq_of_lt] <;> omega
    · rw [← Int.add_emod_right,Int.emod_eq_of_lt] <;> omega
  unfold content
  rw [hring,hdistance,t.readIdx,Int.toNat_natCast]
  refine List.ext_getElem (by simp [hlen]) fun i hi hi' => ?_
  rw [Circular.length_window] at hi
  simp only [Circular.window,List.getElem_map,List.getElem_range,List.getElem_drop,Nat.mod_add_mod]
  exact t.cells (t.taken + i) (by omega) (by omega)

/-- In every order of the accesses of the threads no check of the ring ends the process, and no
copy leaves the buffer. -/
theorem lockfree_never_exits (hc : 0 < c) (fits : 3*c < 2^31)
    (h : Reaches c (fun _ => True) (Pool.start (LockfreeRing.new memory)) s) : s.stopped = none := by
  obtain ⟨t,ht⟩ := reaches_agrees hc fits h
  exact ht.1

theorem lockfree_never_exits_midway :
    (trial 3 (calls .writer [7,8,9] 13 ++ calls .reader 2 5)).map (·.stopped) = some none := by
  obtain ⟨s,hs⟩ := Option.isSome_iff_exists.mp
    (by decide +kernel : (trial 3 (calls .writer [7,8,9] 13 ++ calls .reader 2 5)).isSome)
  rw [hs]
  exact congrArg some (lockfree_never_exits (by decide) (by decide) (reaches_trial hs))

/-- A byte is never loaded while it is being stored: where the reader is about to load a cell and the
writer to store one, they are not the same. -/
theorem lockfree_cells_apart {i j : Int} {b : Byte} (hc : 0 < c) (fits : 3*c < 2^31)
    (h : Reaches c (fun _ => True) (Pool.start (LockfreeRing.new memory)) s)
    (hload : s.next .reader = some (.loadCell i)) (hstore : s.next .writer = some (.storeCell j b)) :
    i ≠ j := by
  obtain ⟨t,ht⟩ := reaches_agrees hc fits h
  obtain ⟨_,u,hu⟩ := ht.next (lockfree_compatible fits ofReads_true) hload
  obtain ⟨_,v,hv⟩ := ht.next (lockfree_compatible fits ofReads_true) hstore
  exact Tracked.readable_ne_free (hu.loads i rfl) (hv.stores j b rfl)

/-- The steps after which a byte is about to be loaded and another to be stored. -/
def copying : List (PoolAct LockfreeThread.Call) :=
  calls .writer [7] 17 ++ calls .reader 1 11 ++ calls .writer [8] 11

theorem lockfree_cells_apart_copying :
    (trial 3 copying).map (fun s => (s.next .reader,s.next .writer)) =
        some (some (.loadCell 0),some (.storeCell 1 8)) ∧ (0 : Int) ≠ 1 := by
  have hrun : (trial 3 copying).map (fun s => (s.next .reader,s.next .writer)) =
      some (some (.loadCell 0),some (.storeCell 1 8)) := by decide +kernel
  obtain ⟨s,hs,hnext⟩ := Option.map_eq_some_iff.mp hrun
  obtain ⟨hload,hstore⟩ := Prod.ext_iff.mp hnext
  exact ⟨hrun,lockfree_cells_apart (by decide) (by decide) (reaches_trial hs) hload hstore⟩

/-- At every moment the bytes that were read are the first of those that were written, the last of
which may still be on their way; between calls the ring holds the others. -/
theorem lockfree_fifo (hc : 0 < c) (fits : 3*c < 2^31)
    (h : Reaches c (fun _ => True) (Pool.start (LockfreeRing.new memory)) s) :
    s.received <+: s.accepted ++ s.writing ∧
      (s.place .reader = none → s.place .writer = none →
        s.accepted = s.received ++ content c s) := by
  obtain ⟨t,ht⟩ := reaches_agrees hc fits h
  have hreader := ht.2.2 .reader
  have hwriter := ht.2.2 .writer
  constructor
  · have hread : s.received <+: t.sent := by
      cases hplace : s.place .reader with
      | none =>
        simp only [PlaceSound,hplace] at hreader
        rw [received,hreader.1]
        exact List.take_prefix _ _
      | some place =>
        simp only [PlaceSound,hplace] at hreader
        exact hreader.1
    have hwritten : t.sent <+: s.accepted ++ s.writing := by
      cases hplace : s.place .writer with
      | none =>
        simp only [PlaceSound,hplace] at hwriter
        rw [accepted,show t.sent = _ from hwriter]
        exact List.prefix_append _ _
      | some place =>
        simp only [PlaceSound,hplace] at hwriter
        simp only [writing,hplace]
        exact hwriter.1.2
    exact hread.trans hwritten
  · intro hr hw
    simp only [PlaceSound,hr] at hreader
    simp only [PlaceSound,hw] at hwriter
    have hread : s.received = t.sent.take t.taken := hreader.1
    have hwritten : t.sent = s.accepted := hwriter
    rw [content_eq ht,hread,List.take_append_drop,hwritten]

theorem lockfree_fifo_copying : ∃ s, trial 3 copying = some s ∧
    s.received <+: s.accepted ++ s.writing ∧
      (s.place .reader = none → s.place .writer = none → s.accepted = s.received ++ content 3 s) := by
  obtain ⟨s,hs⟩ := Option.isSome_iff_exists.mp (by decide +kernel : (trial 3 copying).isSome)
  exact ⟨s,hs,lockfree_fifo (by decide) (by decide) (reaches_trial hs)⟩

/-- The end of the stream is reported only by a ring that is closed, and only when everything that had
been written before the read began has been read: what is lost is at most what is written during it. -/
theorem lockfree_end {t : LockfreePool} {count : Nat} {r : Int × Str} (hc : 0 < c) (fits : 3*c < 2^31)
    (h : Reaches c (fun _ => True) (Pool.start (LockfreeRing.new memory)) s)
    (hidle : s.place .reader = none) (ht : Reaches c (fun _ => True) s t)
    (hread : t.done .reader = s.done .reader ++ [(count,r)]) (hcount : 0 < count) (hempty : r.2 = [])
    (hreader : t.place .reader = none) : t.shared.closed = true ∧ s.accepted <+: t.received := by
  let more : List (Nat × Int × Str) → Tracked c → Prop := fun l u => s.accepted <+: u.sent ∧
    (l = s.done .reader ++ [(count,r)] → s.accepted.length ≤ u.taken ∧ u.ring.closed = true)
  have hmore : OfReads more := by
    refine ⟨fun l u v hl huv => ⟨hl.1.trans huv.sent,fun hr => ?_⟩,fun l u v n q hl hq => ?_⟩
    · obtain ⟨hlen,hclosed⟩ := hl.2 hr
      exact ⟨by rw [huv.taken]; exact hlen,huv.closed hclosed⟩
    · refine ⟨hl.1.trans hq.took.sent,fun hr => ?_⟩
      obtain ⟨-,hlast⟩ := List.append_inj' hr rfl
      obtain ⟨rfl,rfl⟩ : n = count ∧ q = r := by simpa using hlast
      have henough := hq.enough
      have htaken := hq.took.taken
      have hlen := u.sent_length
      have hle := hl.1.length_le
      rw [hempty,List.length_nil] at henough htaken
      exact ⟨by omega,hq.ended hcount hempty⟩
  obtain ⟨u,hu⟩ := reaches_agrees hc fits h
  have hstart : more (s.done .reader) u :=
    ⟨hu.accepted_prefix,fun he => absurd (congrArg List.length he) (by simp)⟩
  obtain ⟨v,hv⟩ := ht.sound (lockfree_compatible fits hmore) (hu.tell hidle hstart)
  have hplace := hv.2.2 .reader
  simp only [PlaceSound,hreader] at hplace
  obtain ⟨hlen,hclosed⟩ := hplace.2.2 hread
  refine ⟨by rw [← hv.2.1]; exact hclosed,?_⟩
  rw [received,hplace.1]
  exact List.prefix_take_iff.mpr ⟨hplace.2.1,hlen⟩

/-- A byte is written, read, and the ring closed. -/
def ending : List (PoolAct LockfreeThread.Call) :=
  calls .writer [7] 17 ++ calls .reader 1 17 ++ calls (.closer 0) () 3

theorem lockfree_end_seven : ∃ s t, trial 3 ending = some s ∧ later 3 s (calls .reader 5 5) = some t ∧
    t.shared.closed = true ∧ s.accepted <+: received t := by
  obtain ⟨s,t,hs,ht,hst⟩ := later_trial 3 ending (calls .reader 5 5)
    (fun s t => (s.place .reader).isNone ∧ (t.place .reader).isNone ∧
      t.done .reader = s.done .reader ++ [(5,0,[])]) (by decide +kernel)
  exact ⟨s,t,hs,ht,lockfree_end (by decide) (by decide) (reaches_trial hs)
    (Option.isNone_iff_eq_none.mp hst.1) (Pool.reachable_runs ht fun _ _ => trivial) hst.2.2
    (by decide) rfl (Option.isNone_iff_eq_none.mp hst.2.1)⟩

end LockfreePool

end RootHelper
