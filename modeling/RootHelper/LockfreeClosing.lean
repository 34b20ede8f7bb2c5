import RootHelper.LockfreeThreads

/-!
The ring buffer without a mutex after it has been closed: what is left in it is read to the end and
nothing is added; but a writer that waits for room is not woken by the closing.
-/

set_option autoImplicit false

namespace RootHelper
open Posix Control LockfreeRing LockfreeThread

/-- The reads of a ring that holds `left` and into which nothing is written any more. -/
def drained (left : Str) : List Nat → List (Nat × Int × Str)
  | [] => []
  | count :: counts =>
    (count,((left.take count).length : Int),left.take count) :: drained (left.drop count) counts

theorem drained_concat (left : Str) (counts : List Nat) (count : Nat) :
    drained left (counts ++ [count]) = drained left counts ++
      [(count,(((left.drop counts.sum).take count).length : Int),(left.drop counts.sum).take count)] := by
  induction counts generalizing left with
  | nil => simp [drained]
  | cons n counts ih => simp [drained,ih]

section Drain

variable {c : Nat}

/-- What a thread sees of the others when nothing is written any more. -/
def seesNoWrites : (i : LockfreeThread) → Tracked c → Tracked c → Prop
  | reader, t, u => ReaderSees t u ∧ u.sent = t.sent
  | writer, t, u => WriterSees t u
  | closer _, t, u => CloserSees t u

def doesNoWrites (whole : Str) :
    (i : LockfreeThread) → List (Call i × Result i) → Call i → LockfreeOp → Tracked c → Tracked c → Prop
  | reader, _, _, o, t, u => ReaderDoes o t u
  | writer, _, _, o, t, u => WriterDoes whole o t u ∧ u.sent = t.sent
  | closer _, _, _, o, t, u => CloserDoes o t u

/-- A closed ring into which `whole` had been written. -/
def Ended (whole : Str) (t : Tracked c) : Prop := t.sent = whole ∧ t.ring.closed = true

/-- Since the closing what was in the ring from `from_` on has been read in order. -/
def afterClosing (whole : Str) (from_ : Nat) (reads : List (Nat × Int × Str)) (writes : List (Str × Int)) :
    (i : LockfreeThread) → List (Call i × Result i) → Tracked c → Prop
  | reader, l, t => Ended whole t ∧ ∃ counts, l = reads ++ drained (whole.drop from_) counts ∧
      whole.drop t.taken = whole.drop (from_ + counts.sum)
  | writer, l, t => Ended whole t ∧ ∃ refused, l = writes ++ refused ∧ ∀ w ∈ refused, w.2 = -1
  | closer _, _, _ => True

def duringClosing (whole : Str) (from_ : Nat) (reads : List (Nat × Int × Str)) (writes : List (Str × Int)) :
    (i : LockfreeThread) → List (Call i × Result i) → Call i → Tracked c → Prop
  | reader, l, _, t => Ended whole t ∧ ∃ counts, l = reads ++ drained (whole.drop from_) counts
  | writer, l, _, t => Ended whole t ∧ ∃ refused, l = writes ++ refused ∧ ∀ w ∈ refused, w.2 = -1
  | closer _, _, _, _ => True

theorem Ended.reader {whole : Str} {t u : Tracked c} (h : Ended whole t)
    (hu : ReaderSees t u ∧ u.sent = t.sent) : Ended whole u := ⟨hu.2.trans h.1,hu.1.closed h.2⟩

theorem Ended.writer {whole : Str} {t u : Tracked c} (h : Ended whole t) (hu : WriterSees t u) :
    Ended whole u := ⟨hu.sent.trans h.1,hu.closed h.2⟩

theorem seesNoWrites_refl (i : LockfreeThread) : Std.Refl (seesNoWrites (c := c) i) := by
  refine ⟨fun t => ?_⟩
  cases i with
  | reader => exact ⟨refl_of _ t,rfl⟩
  | writer => exact refl_of WriterSees t
  | closer n => trivial

theorem seesNoWrites_trans (i : LockfreeThread) : IsTrans (Tracked c) (seesNoWrites i) := by
  refine ⟨fun t u v h h' => ?_⟩
  cases i with
  | reader => exact ⟨trans_of _ h.1 h'.1,h'.2.trans h.2⟩
  | writer => exact trans_of WriterSees h h'
  | closer n => trivial

theorem seesNoWrites_others (whole : Str) (i : LockfreeThread) (l : List (Call i × Result i)) (a : Call i)
    (j : LockfreeThread) (o : LockfreeOp) (t u : Tracked c) (hij : i ≠ j)
    (h : doesNoWrites whole i l a o t u) : seesNoWrites j t u := by
  cases j with
  | closer n => trivial
  | reader =>
    cases i with
    | reader => exact absurd rfl hij
    | writer => exact ⟨h.1.sees,h.2⟩
    | closer n => exact ⟨h.reader,h.writer.sent⟩
  | writer =>
    cases i with
    | reader => exact h.sees
    | writer => exact absurd rfl hij
    | closer n => exact h.writer

theorem reader_ended {whole : Str} (fits : 3*c < 2^31) (count : Nat) {t : Tracked c} (h : Ended whole t) :
    SafeCall (seesNoWrites reader) ReaderDoes (read c count) (fun r u => Ended whole u ∧
      r = ((((whole.drop t.taken).take count).length : Int),(whole.drop t.taken).take count) ∧
      whole.drop u.taken = (whole.drop t.taken).drop count) t := by
  have hread : SafeCall (seesNoWrites reader) ReaderDoes (read c count) _ t :=
    (reader_read fits count).weaken (fun _ _ hu => hu.1) fun _ _ _ hu => hu
  refine (hread.keeping h (fun _ _ => Ended.reader) fun _ _ _ ht hu => ht.writer hu.sees).mono ?_
  rintro ⟨number,buf⟩ u ⟨hended,hdone⟩
  have hlen := t.sent_length
  have hnumber := hdone.number
  have hbytes := hdone.bytes
  have hatMost := hdone.atMost
  have henough := hdone.enough
  have htaken := hdone.took.taken
  simp only at hnumber hbytes hatMost henough htaken
  rw [hended.1] at hbytes
  rw [h.1] at hlen
  have hshort : buf.length ≤ whole.length - t.taken := by
    have := congrArg List.length hbytes
    rw [List.length_take,List.length_drop] at this
    omega
  have hmin : buf.length = min count (whole.drop t.taken).length := by
    rw [List.length_drop]
    omega
  have hbuf : buf = (whole.drop t.taken).take count := by
    rw [hbytes,hmin,← List.take_eq_take_min]
  refine ⟨hended,?_,?_⟩
  · rw [hnumber,hbuf]
  · rw [htaken,hmin,List.drop_drop]
    by_cases hc : count ≤ (whole.drop t.taken).length
    · rw [Nat.min_eq_left hc]
    · rw [Nat.min_eq_right (by omega),List.drop_eq_nil_of_le (by rw [List.length_drop]; omega),
        List.drop_eq_nil_of_le (by rw [List.length_drop] at hc; omega)]

theorem closed_compatible (fits : 3*c < 2^31) (whole : Str) (from_ : Nat)
    (reads : List (Nat × Int × Str)) (writes : List (Str × Int)) :
    Compatible (LockfreeOp.perform c) (code c) (Tracked.ring (c := c)) seesNoWrites (doesNoWrites whole)
      (afterClosing whole from_ reads writes) (duringClosing whole from_ reads writes) fun _ => True where
  refl := seesNoWrites_refl
  trans := seesNoWrites_trans
  others i l a j o t u _ := seesNoWrites_others whole i l a j o t u
  stable i l t u hl h := by
    cases i with
    | reader =>
      obtain ⟨hended,counts,hl,hleft⟩ := hl
      exact ⟨hended.reader h,counts,hl,by rw [h.1.taken]; exact hleft⟩
    | writer => exact ⟨hl.1.writer h,hl.2⟩
    | closer n => trivial
  stableDuring i l a t u hl h := by
    cases i with
    | reader => exact ⟨hl.1.reader h,hl.2⟩
    | writer => exact ⟨hl.1.writer h,hl.2⟩
    | closer n => trivial
  starts i l a t _ hl := by
    cases i with
    | reader =>
      obtain ⟨hended,counts,hl,_⟩ := hl
      exact ⟨hended,counts,hl⟩
    | writer => exact hl
    | closer n => trivial
  own i l a o t u _ hl h := by
    cases i with
    | reader => exact ⟨hl.1.writer h.sees,hl.2⟩
    | writer => exact ⟨hl.1.reader ⟨h.1.sees,h.2⟩,hl.2⟩
    | closer n => trivial
  safe i l a t _ hl := by
    cases i with
    | reader =>
      obtain ⟨hended,counts,hl,hleft⟩ := hl
      refine (reader_ended fits a hended).mono fun r u ⟨hu,hr,hrest⟩ => ?_
      refine ⟨hu,counts ++ [a],?_,?_⟩
      · rw [hl,drained_concat,List.append_assoc,hr,hleft,List.drop_drop]
      · rw [hrest,hleft,List.drop_drop,List.sum_append,List.sum_singleton,Nat.add_assoc]
    | writer =>
      obtain ⟨hended,refused,hl,hrefused⟩ := hl
      have hwrite := @writer_closed _ _ a hended.2
      rw [hended.1] at hwrite
      refine hwrite.mono fun r u ⟨hr,hsent,hclosed⟩ => ?_
      refine ⟨⟨hsent,hclosed⟩,refused ++ [(a,r)],by rw [hl,List.append_assoc],fun w hw => ?_⟩
      rcases List.mem_append.mp hw with hw | hw
      · exact hrefused w hw
      · rw [List.mem_singleton.mp hw]
        exact hr
    | closer n => exact closer_close

end Drain

section Waiting

variable {c : Nat}

def seesNoReads : (i : LockfreeThread) → Tracked c → Tracked c → Prop
  | reader, t, u => ReaderSees t u
  | writer, t, u => WriterSees t u ∧ u.taken = t.taken
  | closer _, t, u => CloserSees t u

theorem seesNoReads_refl (i : LockfreeThread) : Std.Refl (seesNoReads (c := c) i) := by
  refine ⟨fun t => ?_⟩
  cases i with
  | reader => exact refl_of ReaderSees t
  | writer => exact ⟨refl_of _ t,rfl⟩
  | closer n => trivial

/-- A ring without room that holds the end of `whole`. -/
def Full (whole : Str) (t : Tracked c) : Prop := t.sent = whole ∧ t.avail + 1 = c

theorem Full.writer {whole : Str} {t u : Tracked c} (h : Full whole t)
    (hu : WriterSees t u ∧ u.taken = t.taken) : Full whole u :=
  ⟨hu.1.sent.trans h.1,by unfold Tracked.avail; rw [hu.1.sent,hu.2]; exact h.2⟩

theorem Full.does {whole : Str} {t u : Tracked c} {o : LockfreeOp} (h : Full whole t)
    (hu : WriterDoes whole o t u ∧ u.sent = t.sent) : Full whole u :=
  ⟨hu.2.trans h.1,by unfold Tracked.avail; rw [hu.2,hu.1.sees.taken]; exact h.2⟩

theorem writer_waits {whole : Str} (fits : 3*c < 2^31) {t : Tracked c} (h : Full whole t) :
    SafeCall (seesNoReads writer) (fun o t u => WriterDoes whole o t u ∧ u.sent = t.sent)
      (Thread.again (writePoll c) .back) (fun _ _ => False) t := by
  refine Thread.safe_again (Full whole) h (fun _ _ => Full.writer) fun u hu => ?_
  have hlooks : ∀ o : LockfreeOp, o.Looks → ∀ v : Tracked c, WriterDoes whole o v v ∧ v.sent = v.sent :=
    fun o ho v => ⟨writer_looks o ho v,rfl⟩
  refine safe_loadWrite hlooks fun v hv => safe_loadRead hlooks fun w hw => ?_
  refine Thread.safe_pure fun x hx => ?_
  have hwfull := (hu.writer hv).writer hw
  have hdistance := int_distance fits w.taken_le w.room
  rw [hw.1.sent] at hdistance
  have hfull : int ((c : Int) - 1) = (v.sent.length - w.taken : Nat) := by
    have havail := hwfull.2
    unfold Tracked.avail at havail
    rw [hw.1.sent] at havail
    rw [int_of_small] <;> omega
  rw [hdistance,if_pos hfull.symm]
  exact hwfull.writer hx

/-- The call goes on, and the calls that came back are those of `writes`. -/
def waiting (whole : Str) (writes : List (Str × Int)) :
    (i : LockfreeThread) → List (Call i × Result i) → Call i → Tracked c → Prop
  | writer, l, _, t => l = writes ∧ Full whole t
  | reader, _, _, _ => True
  | closer _, _, _, _ => True

def notBack : (i : LockfreeThread) → List (Call i × Result i) → Tracked c → Prop
  | writer, _, _ => False
  | reader, _, _ => True
  | closer _, _, _ => True

theorem waiting_compatible (whole : Str) (writes : List (Str × Int)) :
    Compatible (LockfreeOp.perform c) (code c) (Tracked.ring (c := c)) seesNoReads (doesNoWrites whole)
      notBack (waiting whole writes) (· ≠ reader) where
  refl := seesNoReads_refl
  trans i := by
    refine ⟨fun t u v h h' => ?_⟩
    cases i with
    | reader => exact trans_of ReaderSees h h'
    | writer => exact ⟨trans_of _ h.1 h'.1,h'.2.trans h.2⟩
    | closer n => trivial
  others i l a j o t u hi hij h := by
    cases i with
    | reader => exact absurd rfl hi
    | writer =>
      cases j with
      | reader => exact h.1.sees
      | writer => exact absurd rfl hij
      | closer n => trivial
    | closer n =>
      cases j with
      | reader => exact h.reader
      | writer => exact ⟨h.writer,h.reader.taken⟩
      | closer m => trivial
  stable i l t u hl h := by
    cases i with
    | reader => trivial
    | writer => exact hl
    | closer n => trivial
  stableDuring i l a t u hl h := by
    cases i with
    | reader => trivial
    | writer => exact ⟨hl.1,hl.2.writer h⟩
    | closer n => trivial
  starts i l a t hi hl := by
    cases i with
    | reader => trivial
    | writer => exact hl.elim
    | closer n => trivial
  own i l a o t u hi hl h := by
    cases i with
    | reader => trivial
    | writer => exact ⟨hl.1,hl.2.does h⟩
    | closer n => trivial
  safe i l a t hi hl := by
    cases i with
    | reader => exact absurd rfl hi
    | writer => exact hl.elim
    | closer n => exact closer_close

end Waiting

namespace LockfreePool

variable {c : Nat} {memory : Nat → Byte} {s : LockfreePool}

/-- Of a ring that is closed between two calls the rest is read: every read gives the next bytes, as
many as are asked for and there, and no write takes any. -/
theorem lockfree_drained {t : LockfreePool} (hc : 0 < c) (fits : 3*c < 2^31)
    (h : Reaches c (fun _ => True) (Pool.start (LockfreeRing.new memory)) s)
    (hclosed : s.shared.closed = true) (hreader : s.place .reader = none)
    (hwriter : s.place .writer = none) (ht : Reaches c (fun _ => True) s t) :
    (∃ counts, t.done .reader = s.done .reader ++ drained (content c s) counts) ∧
      ∃ refused, t.done .writer = s.done .writer ++ refused ∧ ∀ w ∈ refused, w.2 = -1 := by
  obtain ⟨u,hu⟩ := reaches_agrees hc fits h
  have hended : Ended u.sent u := ⟨rfl,by rw [hu.2.1]; exact hclosed⟩
  have hstart : s.Sound (LockfreeOp.perform c) Tracked.ring seesNoWrites (doesNoWrites u.sent)
      (afterClosing u.sent u.taken (s.done .reader) (s.done .writer))
      (duringClosing u.sent u.taken (s.done .reader) (s.done .writer)) u := by
    refine ⟨hu.1,hu.2.1,fun i => ?_⟩
    have hi := hu.2.2 i
    cases i with
    | reader =>
      simp only [PlaceSound,hreader]
      exact ⟨hended,[],by simp [drained],by simp⟩
    | writer =>
      simp only [PlaceSound,hwriter]
      exact ⟨hended,[],by simp,by simp⟩
    | closer n => exact hi
  obtain ⟨v,hv⟩ := ht.sound (closed_compatible fits _ _ _ _) hstart
  rw [content_eq hu]
  constructor
  · have hr := hv.2.2 .reader
    cases hplace : t.place .reader with
    | none =>
      simp only [PlaceSound,hplace] at hr
      obtain ⟨_,counts,hdone,_⟩ := hr
      exact ⟨counts,hdone⟩
    | some place =>
      simp only [PlaceSound,hplace] at hr
      exact hr.1.2
  · have hw := hv.2.2 .writer
    cases hplace : t.place .writer with
    | none =>
      simp only [PlaceSound,hplace] at hw
      exact hw.2
    | some place =>
      simp only [PlaceSound,hplace] at hw
      exact hw.1.2

def closing : List (PoolAct LockfreeThread.Call) := calls .writer [7] 17 ++ calls (.closer 0) () 3

theorem lockfree_drained_seven : ∃ s t, trial 3 closing = some s ∧
    later 3 s (calls .reader 5 17 ++ calls .writer [8] 2) = some t ∧
      (∃ counts, t.done .reader = s.done .reader ++ drained (content 3 s) counts) ∧
      ∃ refused, t.done .writer = s.done .writer ++ refused ∧ ∀ w ∈ refused, w.2 = -1 := by
  obtain ⟨s,t,hs,ht,hst⟩ := later_trial 3 closing (calls .reader 5 17 ++ calls .writer [8] 2)
    (fun s _ => s.shared.closed = true ∧ (s.place .reader).isNone ∧ (s.place .writer).isNone)
    (by decide +kernel)
  exact ⟨s,t,hs,ht,lockfree_drained (by decide) (by decide) (reaches_trial hs) hst.1
    (Option.isNone_iff_eq_none.mp hst.2.1) (Option.isNone_iff_eq_none.mp hst.2.2)
    (Pool.reachable_runs ht fun _ _ => trivial)⟩

/-- A writer that waits for room in a full ring is not woken by a closing: as long as nothing is
read its call goes on. -/
theorem lockfree_not_woken {s₁ s₂ t : LockfreePool} {buf : Str} (hc : 0 < c) (fits : 3*c < 2^31)
    (h : Reaches c (fun _ => True) (Pool.start (LockfreeRing.new memory)) s)
    (hopen : s.shared.closed = false) (hfull : (content c s).length + 1 = c)
    (hcall : s.step (LockfreeOp.perform c) (code c) (.call .writer buf) = some s₁)
    (hturn : s₁.step (LockfreeOp.perform c) (code c) (.turn .writer) = some s₂)
    (ht : Reaches c (· ≠ .reader) s₂ t) :
    t.done .writer = s.done .writer ∧ (t.place .writer).isSome := by
  obtain ⟨u,hu⟩ := reaches_agrees hc fits h
  obtain ⟨-,hcase⟩ := Pool.step_cases hcall
  cases hcase with
  | call hidle =>
    obtain ⟨-,hcase⟩ := Pool.step_cases hturn
    cases hcase with
    | @turn _ a p hplace =>
      obtain ⟨rfl,rfl⟩ : buf = a ∧ write c buf = p := by
        simpa [Pool.goes,code] using hplace
      have hufull : Full u.sent u := by
        refine ⟨rfl,?_⟩
        rw [content_eq hu,List.length_drop] at hfull
        exact hfull
      have hstart : Pool.Sound (LockfreeOp.perform c) (Tracked.ring (c := c)) seesNoReads
          (doesNoWrites u.sent) notBack (waiting u.sent (s.done .writer))
          ((s.goes .writer (some (buf,write c buf))).taken .writer buf
            ((write c buf).turn (LockfreeOp.perform c) s.shared)) u := by
        have hmoved : (write c buf).turn (LockfreeOp.perform c) s.shared = .moved (do
            Thread.again (writePoll c) .back
            let closed ← loadClosed
            if closed then pure (-1) else writeCopy c buf) s.shared := by
          change Turn.moved (if s.shared.closed then pure (-1) else _) s.shared = _
          rw [hopen]
          rfl
        rw [hmoved]
        refine ⟨hu.1,hu.2.1,fun i => ?_⟩
        have hi := hu.2.2 i
        cases i with
        | reader =>
          cases hplace : s.place .reader with
          | none => simp [PlaceSound,Pool.taken,Pool.goes,hplace,notBack]
          | some place =>
            simp only [PlaceSound,hplace] at hi
            simp only [PlaceSound,Pool.taken,Pool.goes,hplace,ne_eq,reduceCtorEq,not_false_eq_true,
              Function.update_of_ne]
            exact ⟨trivial,hi.2.mono fun _ _ _ => trivial⟩
        | writer =>
          simp only [PlaceSound,Pool.taken,Pool.goes,Function.update_self]
          have := seesNoReads_refl (c := c) writer
          refine ⟨⟨rfl,hufull⟩,?_⟩
          exact (writer_waits fits hufull).thenDo fun _ _ hf => hf.elim
        | closer n =>
          simp only [PlaceSound,Pool.taken,Pool.goes,ne_eq,reduceCtorEq,not_false_eq_true,
            Function.update_of_ne]
          exact hi
      obtain ⟨v,hv⟩ := ht.sound (waiting_compatible _ _) hstart
      have hw := hv.2.2 .writer
      cases hplace : t.place .writer with
      | none =>
        simp only [PlaceSound,hplace] at hw
        exact hw.elim
      | some place =>
        simp only [PlaceSound,hplace] at hw
        exact ⟨hw.1.1,rfl⟩

def waking : List (PoolAct LockfreeThread.Call) :=
  calls (.closer 0) () 3 ++ List.replicate 20 (.turn .writer)

theorem lockfree_not_woken_eight : ∃ s s₁ s₂ t, trial 2 (calls .writer [7] 17) = some s ∧
    s.step (LockfreeOp.perform 2) (code 2) (.call .writer [8]) = some s₁ ∧
    s₁.step (LockfreeOp.perform 2) (code 2) (.turn .writer) = some s₂ ∧ later 2 s₂ waking = some t ∧
      t.shared.closed = true ∧ t.done .writer = s.done .writer ∧ (t.place .writer).isSome := by
  have hrun : ((trial 2 (calls .writer [7] 17)).bind fun s =>
      (s.step (LockfreeOp.perform 2) (code 2) (.call .writer [8])).bind fun s₁ =>
        (s₁.step (LockfreeOp.perform 2) (code 2) (.turn .writer)).bind fun s₂ =>
          (later 2 s₂ waking).map fun t => decide (s.shared.closed = false ∧
            (content 2 s).length + 1 = 2 ∧ t.shared.closed = true)) = some true := by decide +kernel
  simp only [Option.bind_eq_some_iff,Option.map_eq_some_iff,decide_eq_true_eq] at hrun
  obtain ⟨s,hs,s₁,hs₁,s₂,hs₂,t,ht,hopen,hfull,hclosed⟩ := hrun
  exact ⟨s,s₁,s₂,t,hs,hs₁,hs₂,ht,hclosed,lockfree_not_woken (by decide) (by decide) (reaches_trial hs)
    hopen hfull hs₁ hs₂ (Pool.reachable_runs ht (by decide))⟩

end LockfreePool

end RootHelper
