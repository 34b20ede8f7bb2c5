import RootHelper.Control.Progress
import RootHelper.LockfreeClosing

/-!
Nobody waits in the ring buffer without a mutex for anything but the ring: a read comes back when there
is something to read or the ring is closed, a write when there is room, whatever the other threads do.
-/

set_option autoImplicit false

namespace RootHelper
open Posix Control Control.Thread LockfreeRing LockfreeThread

section Straight

variable {c : Int}

theorem straight_stop {α : Type} (fault : LockfreeFault) : (stop fault : LockfreeM α).Straight :=
  fun x => x.elim

theorem straight_loadCells (off : Int) (n : Nat) : (loadCells off n).Straight := by
  induction n generalizing off with
  | zero => exact straight_pure _
  | succ n ih => exact (straight_ask _).thenDo fun b => (ih (off+1)).thenDo fun _ => straight_pure _

theorem straight_storeCells (off : Int) (src : Str) : (storeCells off src).Straight := by
  induction src generalizing off with
  | nil => exact straight_pure _
  | cons b src ih => exact (straight_ask _).thenDo fun _ => ih (off+1)

theorem straight_memcpyFrom (off n : Int) : (memcpyFrom off n).Straight := by
  unfold memcpyFrom
  split
  · exact straight_stop _
  · exact straight_loadCells _ _

theorem straight_memcpyTo (off : Int) (src : Str) (n : Int) : (memcpyTo off src n).Straight := by
  unfold memcpyTo
  split
  · exact straight_stop _
  · exact straight_storeCells _ _

theorem straight_close : LockfreeRing.close.Straight := by
  refine (straight_ask _).thenDo fun closed => ?_
  split
  · exact straight_pure _
  · exact straight_ask _

theorem straight_isEmpty : isEmpty.Straight :=
  (straight_ask _).thenDo fun _ => (straight_ask _).thenDo fun _ => straight_pure _

theorem straight_distance : (oneDirCircularDistance c).Straight :=
  (straight_ask _).thenDo fun _ => (straight_ask _).thenDo fun _ => straight_pure _

theorem straight_incrementRead (n : Int) : (incrementRead c n).Straight := by
  refine straight_distance.thenDo fun distance => ?_
  split
  · exact straight_stop _
  · exact (straight_ask _).thenDo fun _ => straight_ask _

theorem straight_incrementWrite (n : Int) : (incrementWrite c n).Straight := by
  refine straight_distance.thenDo fun distance => ?_
  split
  · exact straight_stop _
  · exact (straight_ask _).thenDo fun _ => straight_ask _

theorem straight_readBytes (n : Int) : (readBytes c n).Straight := by
  refine (straight_ask _).thenDo fun writeIdx => (straight_ask _).thenDo fun readIdx => ?_
  split
  · refine (straight_ask _).thenDo fun readIdx => ?_
    dsimp only
    split
    · split
      · exact straight_stop _
      · exact (straight_ask _).thenDo fun _ => (straight_memcpyFrom _ _).thenDo fun _ =>
          (straight_memcpyFrom _ _).thenDo fun _ => straight_pure _
    · exact (straight_ask _).thenDo fun _ => straight_memcpyFrom _ _
  · refine (straight_ask _).thenDo fun writeIdx => (straight_ask _).thenDo fun readIdx => ?_
    split
    · exact straight_stop _
    · exact (straight_ask _).thenDo fun _ => straight_memcpyFrom _ _

theorem straight_readCopy (count : Nat) : (readCopy c count).Straight := by
  refine straight_distance.thenDo fun maxReadable => ?_
  dsimp only
  refine (straight_readBytes _).thenDo fun buf => ?_
  generalize RingBuffer.bytesToBeCopied count maxReadable = n
  exact (straight_incrementRead n).thenDo fun _ => straight_pure _

theorem straight_closedAndEmpty : closedAndEmpty.Straight := by
  refine (straight_ask _).thenDo fun closed => ?_
  split
  · exact straight_isEmpty
  · exact straight_pure _

theorem straight_writeBytes (buf : Str) (n : Int) : (writeBytes c buf n).Straight := by
  refine (straight_ask _).thenDo fun readIdx => (straight_ask _).thenDo fun writeIdx => ?_
  split
  · refine (straight_ask _).thenDo fun writeIdx => ?_
    dsimp only
    split
    · exact straight_stop _
    · split
      · split
        · exact straight_stop _
        · refine (straight_ask _).thenDo fun writeIdx => (straight_memcpyTo _ _ _).thenDo fun _ => ?_
          split
          · exact straight_memcpyTo _ _ _
          · exact straight_pure _
      · exact (straight_ask _).thenDo fun _ => straight_memcpyTo _ _ _
  · exact (straight_ask _).thenDo fun _ => straight_memcpyTo _ _ _

theorem straight_writeCopy (buf : Str) : (writeCopy c buf).Straight := by
  refine straight_distance.thenDo fun distance => ?_
  dsimp only
  split
  · exact straight_stop _
  · refine (straight_writeBytes _ _).thenDo fun _ => ?_
    generalize RingBuffer.bytesToBeCopied buf.length (int (int (c - 1) - distance)) = n
    exact (straight_incrementWrite n).thenDo fun _ => straight_pure _

end Straight

section Waits

/-- Where a thread has nothing to wait for. -/
def Ready (c : Int) : LockfreeThread → LockfreeRing → Prop
  | reader, rb => rb.closed = true ∨ rb.readIdx ≠ rb.writeIdx
  | writer, rb => (int (int (rb.writeIdx - rb.readIdx) + c)).tmod c ≠ int (c - 1)
  | closer _, _ => True

variable {c : Int}

theorem looks_keep {W : LockfreeRing → Prop} {o : LockfreeOp} (ho : o.Looks) :
    Keeps (LockfreeOp.perform c) W o := by
  intro s x t hs h
  cases o with
  | loadClosed | loadRead | loadWrite =>
    obtain ⟨-,rfl⟩ : _ ∧ s = t := by simpa [LockfreeOp.perform] using h
    exact hs
  | _ => exact ho.elim

theorem looking_loadClosed {W : LockfreeRing → Prop} : loadClosed.Looking (LockfreeOp.perform c) W :=
  looking_ask (looks_keep (o := LockfreeOp.loadClosed) trivial)

theorem looking_loadRead {W : LockfreeRing → Prop} : loadRead.Looking (LockfreeOp.perform c) W :=
  looking_ask (looks_keep (o := LockfreeOp.loadRead) trivial)

theorem looking_loadWrite {W : LockfreeRing → Prop} : loadWrite.Looking (LockfreeOp.perform c) W :=
  looking_ask (looks_keep (o := LockfreeOp.loadWrite) trivial)

theorem looking_isEmpty {W : LockfreeRing → Prop} : isEmpty.Looking (LockfreeOp.perform c) W :=
  looking_loadRead.thenDo fun _ => looking_loadWrite.thenDo fun _ => trivial

theorem looking_distance {W : LockfreeRing → Prop} :
    (oneDirCircularDistance c).Looking (LockfreeOp.perform c) W :=
  looking_loadWrite.thenDo fun _ => looking_loadRead.thenDo fun _ => trivial

theorem looking_readPoll {W : LockfreeRing → Prop} : readPoll.Looking (LockfreeOp.perform c) W := by
  refine looking_isEmpty.thenDo fun empty => ?_
  split
  · exact looking_loadClosed.thenDo fun _ => trivial
  · trivial

theorem read_ends (count : Nat) : (read c count).Ends (LockfreeOp.perform c) (Ready c reader) := by
  refine ⟨looking_readPoll,fun more => ?_,fun s hs => ?_⟩
  · cases more with
    | false => exact straight_pure _
    | true =>
      refine straight_closedAndEmpty.thenDo fun done => ?_
      split
      · exact straight_pure _
      · exact straight_readCopy _
  · by_cases hempty : s.readIdx = s.writeIdx
    · have hclosed : s.closed = true := hs.resolve_right (not_not_intro hempty)
      exact ⟨false,s,by simp [readPoll,isEmpty,loadRead,loadWrite,loadClosed,ask,run,hempty,hclosed,
        Bind.bind,Thread.bind,LockfreeOp.perform,pure]⟩
    · exact ⟨true,s,by simp [readPoll,isEmpty,loadRead,loadWrite,ask,run,hempty,Bind.bind,Thread.bind,
        LockfreeOp.perform,pure]⟩

theorem write_ends (buf : Str) : (write c buf).Ends (LockfreeOp.perform c) (Ready c writer) := by
  refine .inr ⟨looks_keep (o := LockfreeOp.loadClosed) trivial,fun closed => ?_⟩
  cases closed with
  | true => trivial
  | false =>
    refine ⟨looking_distance.thenDo fun _ => trivial,fun _ => ?_,fun s hs => ⟨(),s,?_⟩⟩
    · refine (straight_ask _).thenDo fun closed => ?_
      split
      · exact straight_pure _
      · exact straight_writeCopy _
    · have hroom : (int (int (s.writeIdx - s.readIdx) + c)).tmod c ≠ int (c - 1) := hs
      simp [writePoll,oneDirCircularDistance,loadRead,loadWrite,ask,run,hroom,Bind.bind,Thread.bind,
        LockfreeOp.perform,pure]

theorem code_ends (i : LockfreeThread) (a : Call i) :
    (code c i a).Ends (LockfreeOp.perform c) (Ready c i) := by
  cases i with
  | reader => exact read_ends a
  | writer => exact write_ends a
  | closer n => exact straight_close.ends

end Waits

namespace LockfreePool

variable {c : Nat} {memory : Nat → Byte} {s : LockfreePool} {i : LockfreeThread}

/-- What a thread waits for, told of what the ring holds. -/
def Unblocked (c : Nat) : LockfreeThread → LockfreePool → Prop
  | .reader, s => s.shared.closed = true ∨ content c s ≠ []
  | .writer, s => (content c s).length + 1 < c
  | .closer _, _ => True

theorem Agrees.ready {t : Tracked c} (fits : 3*c < 2^31) (h : Agrees (fun _ _ => True) s t)
    (hi : Unblocked c i s) : Ready c i s.shared := by
  have hring : s.shared = t.ring := h.2.1.symm
  rw [hring]
  have hlen : (content c s).length = t.avail := by rw [content_eq h,List.length_drop]; rfl
  cases i with
  | closer n => trivial
  | reader =>
    refine hi.imp (fun hclosed => by rw [← hring]; exact hclosed) fun hne he => hne ?_
    rw [t.readIdx,t.writeIdx] at he
    have hzero := (mod_eq_iff_avail t).mp (by exact_mod_cast he)
    exact List.length_eq_zero_iff.mp (hlen.trans hzero)
  | writer =>
    have hroom : (content c s).length + 1 < c := hi
    change (int (int (t.ring.writeIdx - t.ring.readIdx) + c)).tmod c ≠ int (c - 1)
    rw [t.readIdx,t.writeIdx,int_distance fits t.taken_le t.room]
    have hfull : int ((c : Int) - 1) = (c - 1 : Nat) := by
      rw [int_of_small] <;> omega
    have havail : t.sent.length - t.taken = t.avail := rfl
    rw [hfull,havail]
    omega

/-- Wherever a thread is in a call, and wherever the others have stopped in theirs: left alone it comes
back, if it reads and there is something to read or the ring is closed, if it writes and there is room,
and if it closes in any case. -/
theorem lockfree_comes_back (hc : 0 < c) (fits : 3*c < 2^31)
    (h : Reaches c (fun _ => True) (Pool.start (LockfreeRing.new memory)) s) (hi : Unblocked c i s)
    (hplace : (s.place i).isSome) : ∃ t, Reaches c (· = i) s t ∧ t.place i = none := by
  obtain ⟨u,hu⟩ := reaches_agrees hc fits h
  obtain ⟨⟨a,p⟩,hat⟩ := Option.isSome_iff_exists.mp hplace
  refine Pool.comes_back (h.ends code_ends (fun _ => rfl) hat) (hu.ready fits hi) hat fun t ht => ?_
  obtain ⟨v,hv⟩ := reaches_agrees hc fits (h.trans (ht.mono fun _ _ => trivial))
  exact hv.1

/-- The reader looks at an empty ring, and then a byte is written. -/
def looking : List (PoolAct LockfreeThread.Call) := calls .reader 1 3 ++ calls .writer [7] 17

theorem lockfree_comes_back_looking : ∃ s t, trial 3 looking = some s ∧ (s.place .reader).isSome ∧
    Reaches 3 (· = .reader) s t ∧ t.place .reader = none := by
  obtain ⟨s,_,hs,_,hst⟩ := later_trial 3 looking []
    (fun s _ => content 3 s ≠ [] ∧ (s.place .reader).isSome) (by decide +kernel)
  obtain ⟨t,ht⟩ := lockfree_comes_back (i := .reader) (by decide) (by decide) (reaches_trial hs)
    (.inr hst.1) hst.2
  exact ⟨s,t,hs,hst.2,ht⟩

end LockfreePool

end RootHelper
