import RootHelper.LockfreeSafety

/-!
Writing into the ring without a mutex while the reader goes on: bytes are stored into cells the
reader does not look at, and are given to it all at once.
-/

set_option autoImplicit false

namespace RootHelper
open Posix Control LockfreeRing

section Writer

variable {c : Nat} {α : Type} {Q : α → Tracked c → Prop} {t : Tracked c} {whole : Str}

abbrev WriterSafe (whole : Str) (p : LockfreeM α) (Q : α → Tracked c → Prop) (t : Tracked c) : Prop :=
  SafeCall WriterSees (WriterDoes whole) p Q t

theorem WriterSees.avail {u : Tracked c} (h : WriterSees t u) : u.avail ≤ t.avail := by
  have htaken := h.taken
  have hsent := congrArg List.length h.sent
  unfold Tracked.avail
  omega

theorem writer_looks (o : LockfreeOp) (ho : o.Looks) (t : Tracked c) : WriterDoes whole o t t :=
  .looks ho t

/-- The bytes `bs` are in the cells behind those that can be read. -/
structure CellsFilled (t : Tracked c) (bs : Str) (u : Tracked c) : Prop where
  taken : t.taken ≤ u.taken
  sent : u.sent = t.sent
  closed : t.ring.closed → u.ring.closed
  cells : ∀ j (h : j < bs.length), u.ring.ringbuffer ((t.sent.length + j) % c) = bs[j]

theorem CellsFilled.none {u : Tracked c} (h : WriterSees t u) : CellsFilled t [] u :=
  ⟨h.taken,h.sent,h.closed,fun j hj => by simp at hj⟩

theorem CellsFilled.later {bs : Str} {u v : Tracked c} (h : CellsFilled t bs u) (hv : WriterSees u v) :
    CellsFilled t bs v :=
  ⟨h.taken.trans hv.taken,hv.sent.trans h.sent,hv.closed ∘ h.closed,fun j hj => by
    rw [hv.cells]; exact h.cells j hj⟩

theorem CellsFilled.since {bs : Str} {s u : Tracked c} (hs : WriterSees s t) (h : CellsFilled t bs u) :
    CellsFilled s bs u :=
  ⟨hs.taken.trans h.taken,h.sent.trans hs.sent,h.closed ∘ hs.closed,fun j hj => by
    rw [← hs.sent]; exact h.cells j hj⟩

theorem CellsFilled.avail {bs : Str} {u : Tracked c} (h : CellsFilled t bs u) : u.avail ≤ t.avail := by
  have htaken := h.taken
  have hsent := congrArg List.length h.sent
  unfold Tracked.avail
  omega

theorem CellsFilled.stored {bs : Str} {u : Tracked c} {k : Nat} {b : Byte} (h : CellsFilled t bs u)
    (hk : k = t.sent.length + bs.length) (hroom : t.avail + bs.length < c)
    (hle : u.sent.length ≤ k) (hlt : k < u.taken + c) :
    CellsFilled t (bs ++ [b]) (u.stored k b hle hlt) := by
  subst hk
  refine ⟨h.taken,h.sent,h.closed,fun j hj => ?_⟩
  change Circular.put u.ring.ringbuffer ((t.sent.length + bs.length) % c) [b] _ = _
  rw [List.length_append,List.length_singleton] at hj
  by_cases hlast : j = bs.length
  · subst hlast
    rw [Circular.put_in (Nat.le_refl _) (by simp)]
    simp
  · rw [List.getElem_append_left (by omega),← h.cells j (by omega)]
    refine Circular.put_out fun hin => ?_
    simp only [List.length_singleton] at hin
    have hmod : (t.sent.length + j) % c = (t.sent.length + bs.length) % c := by omega
    have hdvd := (Nat.modEq_iff_dvd' (by omega)).mp hmod
    have hle' := Nat.le_of_dvd (by omega) hdvd
    omega

theorem writer_storeCell {f : Unit → LockfreeM α} {bs : Str} {b : Byte} {i : Int} {u : Tracked c}
    (hu : CellsFilled t bs u) (hroom : t.avail + bs.length < c)
    (hi : i = ((t.sent.length + bs.length) % c : Nat))
    (h : ∀ v, CellsFilled t (bs ++ [b]) v → WriterSafe whole (f ()) Q v) :
    WriterSafe whole (storeCell i b >>= f) Q u := by
  intro v hv
  have hfilled := hu.later hv
  have htlen := t.sent_length
  have htaken := hfilled.taken
  have hlen := congrArg List.length hfilled.sent
  have hle : v.sent.length ≤ t.sent.length + bs.length := by omega
  have hlt : t.sent.length + bs.length < v.taken + c := by omega
  have hin : 0 ≤ i ∧ i < c := by
    have := Nat.mod_lt (t.sent.length + bs.length) t.cap_pos
    omega
  refine ⟨(),v.stored _ b hle hlt,?_,⟨⟨rfl,List.prefix_rfl,id⟩,id,rfl,fun j h => by simp at h,?_⟩,?_⟩
  · simp only [LockfreeOp.perform]
    rw [if_pos hin,hi,Int.toNat_natCast]
    rfl
  · intro j d hj
    obtain ⟨rfl,-⟩ := LockfreeOp.storeCell.inj hj
    exact ⟨_,hle,hlt,hi⟩
  · exact h _ (hfilled.stored rfl hroom hle hlt)

theorem writer_storeCells {bs src : Str} {off : Nat} {u : Tracked c} (hu : CellsFilled t bs u)
    (hroom : t.avail + bs.length + src.length < c)
    (hidx : ∀ i, i < src.length → (t.sent.length + bs.length + i) % c = off + i) :
    WriterSafe whole (storeCells off src) (fun _ v => CellsFilled t (bs ++ src) v) u := by
  induction src generalizing bs off u with
  | nil => exact Thread.safe_pure fun v hv => by simpa using hu.later hv
  | cons b src ih =>
    rw [List.length_cons] at hroom
    have hoff : (t.sent.length + bs.length) % c = off := by simpa using hidx 0 (by simp)
    refine writer_storeCell hu (by omega) (by rw [hoff]) fun v hv => ?_
    have hstep : ∀ i, i < src.length → (t.sent.length + (bs ++ [b]).length + i) % c = off + 1 + i := by
      intro i hi
      have := hidx (i+1) (by simpa using hi)
      have hsame : t.sent.length + (bs ++ [b]).length + i = t.sent.length + bs.length + (i + 1) := by
        rw [List.length_append,List.length_singleton]
        omega
      rw [hsame,this]
      omega
    have hrest : WriterSafe whole (storeCells (off+1 : Nat) src)
        (fun _ w => CellsFilled t (bs ++ [b] ++ src) w) v :=
      ih hv (by rw [List.length_append,List.length_singleton]; omega) hstep
    simpa using hrest

theorem writer_memcpyTo {bs src : Str} {off n : Nat} {u : Tracked c} (hu : CellsFilled t bs u)
    (hn : n ≤ src.length) (hroom : t.avail + bs.length + n < c)
    (hidx : ∀ i, i < n → (t.sent.length + bs.length + i) % c = off + i) :
    WriterSafe whole (memcpyTo off src n) (fun _ v => CellsFilled t (bs ++ src.take n) v) u := by
  have hlen : (src.take n).length = n := by rw [List.length_take]; omega
  rw [memcpyTo,if_neg (by omega),Int.toNat_natCast]
  exact writer_storeCells hu (by omega) (by rw [hlen]; exact hidx)

theorem writer_straight {buf : Str} {n : Nat} (hn : n ≤ buf.length) (hroom : t.avail + n < c)
    (h : t.sent.length % c + n ≤ c) :
    WriterSafe whole (do let writeIdx ← loadWrite; memcpyTo writeIdx buf n)
      (fun _ v => CellsFilled t (buf.take n) v) t := by
  refine safe_loadWrite writer_looks fun u hu => ?_
  have hcopy : WriterSafe whole (memcpyTo (t.sent.length % c : Nat) buf n)
      (fun _ v => CellsFilled t ([] ++ buf.take n) v) u :=
    writer_memcpyTo (.none hu) hn (by simpa using hroom) fun i hi => by
      simpa using mod_straight (n := n) h hi
  rw [hu.sent]
  simpa using hcopy

theorem writer_wrapped {buf : Str} {pre post : Nat} (hn : pre + post ≤ buf.length)
    (hroom : t.avail + (pre + post) < c) (h : t.sent.length % c + pre = c) :
    WriterSafe whole (do
      let writeIdx ← loadWrite
      memcpyTo writeIdx buf pre
      if 0 < (post : Int) then memcpyTo 0 (buf.drop pre) post else pure ())
      (fun _ v => CellsFilled t (buf.take (pre + post)) v) t := by
  refine safe_loadWrite writer_looks fun u hu => ?_
  have hfirst : WriterSafe whole (memcpyTo (t.sent.length % c : Nat) buf pre)
      (fun _ v => CellsFilled t ([] ++ buf.take pre) v) u :=
    writer_memcpyTo (.none hu) (by omega) (by simp; omega) fun i hi => by
      simpa using mod_straight (n := pre) (by omega) hi
  rw [hu.sent]
  refine hfirst.thenDo fun _ v hv => ?_
  rw [List.nil_append] at hv
  have hlen : (buf.take pre).length = pre := by rw [List.length_take]; omega
  split
  · have hsecond : WriterSafe whole (memcpyTo (0 : Nat) (buf.drop pre) post)
        (fun _ w => CellsFilled t (buf.take pre ++ (buf.drop pre).take post) w) v :=
      writer_memcpyTo hv (by rw [List.length_drop]; omega) (by omega) fun i hi => by
        rw [hlen,Nat.add_assoc,← Nat.mod_add_mod,← Nat.add_assoc,h,Nat.add_mod_left,
          Nat.mod_eq_of_lt (by omega),Nat.zero_add]
    rwa [← List.take_add] at hsecond
  · obtain rfl : post = 0 := by omega
    exact Thread.safe_pure fun w hw => hv.later hw

variable (fits : 3*c < 2^31)

include fits

theorem writer_distance : WriterSafe whole (oneDirCircularDistance c)
    (fun x u => ∃ d : Nat, x = d ∧ d ≤ t.avail ∧ u.avail ≤ d ∧ WriterSees t u) t := by
  refine safe_loadWrite writer_looks fun u hu => safe_loadRead writer_looks fun v hv => ?_
  have htv : WriterSees t v := trans_of _ hu hv
  refine Thread.safe_pure fun w hw => ⟨v.avail,?_,htv.avail,hw.avail,trans_of _ htv hw⟩
  rw [← hv.sent,int_distance fits v.taken_le v.room]
  rfl

/-- Whichever branch the indices lead to, also when the reader has gone around in between. -/
theorem writer_writeBytes {buf : Str} {n : Nat} (hn : n ≤ buf.length) (hroom : t.avail + n < c) :
    WriterSafe whole (writeBytes c buf n) (fun _ v => CellsFilled t (buf.take n) v) t := by
  refine safe_loadRead writer_looks fun u hu => safe_loadWrite writer_looks fun v hv => ?_
  have htv : WriterSees t v := trans_of _ hu hv
  have hat := u.write_at
  have hua := hu.avail
  have hr := Nat.mod_lt u.taken t.cap_pos
  have hw := Nat.mod_lt t.sent.length t.cap_pos
  have huse : ∀ {w : Tracked c} {p : LockfreeM Unit}, WriterSees t w →
      WriterSafe whole p (fun _ x => CellsFilled w (buf.take n) x) w →
      WriterSafe whole p (fun _ x => CellsFilled t (buf.take n) x) w :=
    fun hw hp => hp.mono fun _ _ hx => hx.since hw
  rw [htv.sent]
  rw [hu.sent] at hat
  split
  · refine safe_loadWrite writer_looks fun w hvw => ?_
    have htw : WriterSees t w := trans_of _ htv hvw
    have hwa := htw.avail
    have hpre : int ((c : Int) - (w.sent.length % c : Nat)) = (c - t.sent.length % c : Nat) := by
      rw [htw.sent,int_of_small] <;> omega
    rw [hpre]
    dsimp only
    rw [if_neg (by omega)]
    split
    · have hpost : int ((n : Int) - (c - t.sent.length % c : Nat)) =
          (n - (c - t.sent.length % c) : Nat) := by
        rw [int_of_small] <;> omega
      rw [hpost,if_neg (by omega),Int.toNat_natCast]
      have hsum : c - t.sent.length % c + (n - (c - t.sent.length % c)) = n := by omega
      refine huse htw ?_
      have hin : c - t.sent.length % c + (n - (c - t.sent.length % c)) ≤ buf.length := by omega
      have hcopy : WriterSafe whole _ _ w :=
        writer_wrapped hin (by omega) (by rw [htw.sent]; omega)
      rwa [hsum] at hcopy
    · exact huse htw (writer_straight hn (by omega) (by rw [htw.sent]; omega))
  · rename_i hahead
    refine huse htv (writer_straight hn (by have := htv.avail; omega) ?_)
    -- the reader is in front of the writer, and only as much is written as fits before it
    have hwrapped : c ≤ u.taken % c + u.avail := by
      by_contra hlt
      rw [if_pos (by omega)] at hat
      omega
    rw [if_neg (by omega)] at hat
    rw [htv.sent]
    omega

theorem writer_incrementWrite {bs : Str} {u : Tracked c} (hu : CellsFilled t bs u)
    (hroom : t.avail + bs.length < c) (hwhole : t.sent ++ bs <+: whole) :
    WriterSafe whole (incrementWrite c bs.length)
      (fun _ v => v.sent = t.sent ++ bs ∧ t.taken ≤ v.taken ∧ (t.ring.closed → v.ring.closed)) u := by
  refine (writer_distance fits).thenDo fun x v ⟨d,hx,hdu,_,huv⟩ => ?_
  have hua := hu.avail
  have hfree : int (int ((c : Int) - x) - 1) = (c - d - 1 : Nat) := by
    have hsub : int ((c : Int) - x) = (c - d : Nat) := by
      rw [hx,int_of_small] <;> omega
    rw [hsub,int_of_small] <;> omega
  rw [hfree,if_neg (by omega)]
  refine safe_loadWrite writer_looks fun w hw y hy => ?_
  have hty : CellsFilled t bs y := hu.later (trans_of _ (trans_of _ huv hw) hy)
  have hya := hty.avail
  have hcells : ∀ k (h : k < bs.length), y.ring.ringbuffer ((y.sent.length + k) % c) = bs[k] := by
    rw [hty.sent]
    exact hty.cells
  refine ⟨(),y.gave bs (by omega) hcells,?_,⟨⟨rfl,List.prefix_append _ _,id⟩,fun _ => ?_,rfl,
    fun i h => by simp at h,fun i b h => by simp at h⟩,fun z hz => ?_⟩
  · simp only [LockfreeOp.perform]
    rw [int_next fits y.cap_pos (by omega),← hy.sent]
    rfl
  · rw [← hty.sent] at hwhole
    exact hwhole
  · refine ⟨?_,hty.taken.trans hz.taken,hz.closed ∘ hty.closed⟩
    rw [hz.sent,← hty.sent]
    rfl

/-- What a call of `write` with `buf` gives that began at `t`. -/
structure WriteDone (t : Tracked c) (buf : Str) (r : Int) (u : Tracked c) : Prop where
  taken : t.taken ≤ u.taken
  closed : t.ring.closed → u.ring.closed
  sent : u.sent = t.sent ++ buf.take r.toNat
  /-- It is refused only when the ring is closed, and then takes nothing; otherwise it takes at
  least one byte when it is given one. -/
  result : r = -1 ∧ u.ring.closed ∨ 0 ≤ r ∧ r.toNat ≤ buf.length ∧ (buf ≠ [] → 0 < r)

omit fits in
theorem WriteDone.since {s u : Tracked c} {buf : Str} {r : Int} (hs : WriterSees s t)
    (h : WriteDone t buf r u) : WriteDone s buf r u :=
  ⟨hs.taken.trans h.taken,h.closed ∘ hs.closed,by rw [h.sent,hs.sent],h.result⟩

omit fits in
theorem writer_refused {buf : Str} (hclosed : t.ring.closed) :
    WriterSafe whole (pure (-1)) (WriteDone t buf) t :=
  Thread.safe_pure fun _ hu => ⟨hu.taken,hu.closed,by simp [hu.sent],.inl ⟨rfl,hu.closed hclosed⟩⟩

theorem writer_writeCopy {buf : Str} (hroom : t.avail + 1 < c) (hwhole : t.sent ++ buf <+: whole) :
    WriterSafe whole (writeCopy c buf) (WriteDone t buf) t := by
  refine (writer_distance fits).thenDo fun x u ⟨d,hx,hdt,hud,htu⟩ => ?_
  have hmax : int (int ((c : Int) - 1) - x) = (c - 1 - d : Nat) := by
    have hsub : int ((c : Int) - 1) = (c - 1 : Nat) := by
      rw [int_of_small] <;> omega
    rw [hsub,hx,int_of_small] <;> omega
  have hk : RingBuffer.bytesToBeCopied buf.length (int (int ((c : Int) - 1) - x)) =
      (min buf.length (c - 1 - d) : Nat) := RingBuffer.bytesToBeCopied_eq hmax (by omega)
  dsimp only
  rw [hk,hmax,if_neg (by omega)]
  have hcopy : WriterSafe whole (writeBytes c buf (min buf.length (c - 1 - d) : Nat)) _ u :=
    writer_writeBytes fits (Nat.min_le_left _ _) (by omega)
  refine hcopy.thenDo fun _ v hv => ?_
  have hlen : (buf.take (min buf.length (c - 1 - d))).length = min buf.length (c - 1 - d) := by
    rw [List.length_take]
    omega
  have hpart : u.sent ++ buf.take (min buf.length (c - 1 - d)) <+: whole := by
    rw [htu.sent]
    exact ((List.prefix_append_right_inj _).mpr (List.take_prefix _ _)).trans hwhole
  have hinc : WriterSafe whole _ _ v := writer_incrementWrite fits hv (by omega) hpart
  rw [hlen] at hinc
  refine hinc.thenDo fun _ w ⟨hsent,htaken,hclosed⟩ => Thread.safe_pure fun y hy => WriteDone.since htu ?_
  refine ⟨htaken.trans hy.taken,hy.closed ∘ hclosed,by rw [hy.sent,hsent,Int.toNat_natCast],
    .inr ⟨by omega,by omega,fun hne => ?_⟩⟩
  have hpos := List.length_pos_iff.mpr hne
  omega

/-- A write begun at any moment, the others going on as they may. -/
theorem writer_write {buf : Str} (hwhole : t.sent ++ buf <+: whole) : WriterSafe whole (write c buf) (WriteDone t buf) t := by
  refine safe_loadClosed writer_looks fun u hu => ?_
  split
  · rename_i hclosed
    exact (writer_refused hclosed).mono fun _ _ h => h.since hu
  · have hpoll : WriterSafe whole (Thread.again (writePoll c) .back)
        (fun _ v => WriterSees u v ∧ v.avail + 1 < c) u := by
      refine Thread.safe_again (WriterSees u) (refl_of _ u) (fun _ _ => trans_of _) fun v hv => ?_
      refine (writer_distance fits).thenDo fun x w ⟨d,hx,hdv,hwd,hvw⟩ => Thread.safe_pure fun y hy => ?_
      have huy : WriterSees u y := trans_of _ (trans_of _ hv hvw) hy
      have hvc := v.avail_lt
      have hfull : int ((c : Int) - 1) = (c - 1 : Nat) := by
        rw [int_of_small] <;> omega
      rw [hx,hfull]
      split
      · exact huy
      · intro z hz
        have hza := (trans_of _ hy hz : WriterSees w z).avail
        exact ⟨trans_of _ huy hz,by omega⟩
    refine hpoll.thenDo fun _ v ⟨huv,hroom⟩ => ?_
    refine safe_loadClosed writer_looks fun w hw => ?_
    have htw : WriterSees t w := trans_of _ hu (trans_of _ huv hw)
    split
    · rename_i hclosed
      exact (writer_refused hclosed).mono fun _ _ h => h.since htw
    · have hwa := hw.avail
      exact (writer_writeCopy fits (by omega) (by rw [htw.sent]; exact hwhole)).mono fun _ _ h => h.since htw

omit fits in
theorem writer_closed {buf : Str} (hclosed : t.ring.closed) :
    SafeCall WriterSees (fun o u v => WriterDoes t.sent o u v ∧ v.sent = u.sent) (write c buf)
      (fun r u => r = -1 ∧ u.sent = t.sent ∧ u.ring.closed) t := by
  refine safe_loadClosed (fun o ho u => ⟨writer_looks o ho u,rfl⟩) fun u hu => ?_
  rw [if_pos (hu.closed hclosed)]
  exact Thread.safe_pure fun v hv => ⟨rfl,hv.sent.trans hu.sent,hv.closed (hu.closed hclosed)⟩

end Writer

section Closer

variable {c : Nat} {t : Tracked c}

/-- Between two accesses of a thread that closes, anything may be done by the reader and the writer. -/
def CloserSees (_ _ : Tracked c) : Prop := True

instance : Std.Refl (CloserSees (c := c)) := ⟨fun _ => trivial⟩

instance : IsTrans (Tracked c) CloserSees := ⟨fun _ _ _ _ _ => trivial⟩

theorem closer_close : SafeCall CloserSees CloserDoes LockfreeRing.close (fun _ _ => True) t := by
  refine safe_loadClosed (fun o ho u => .looks ho u) fun u _ => ?_
  split
  · exact Thread.safe_pure fun _ _ => trivial
  · intro v _
    exact ⟨(),v.closing,rfl,⟨⟨rfl,List.prefix_rfl,fun _ => rfl⟩,⟨Nat.le_refl _,rfl,rfl,fun _ => rfl⟩,
      fun i h => by simp at h,fun i b h => by simp at h⟩,fun _ _ => trivial⟩

end Closer

end RootHelper
