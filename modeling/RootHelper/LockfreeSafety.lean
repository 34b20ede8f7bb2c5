import RootHelper.LockfreeRing

/-!
What the calls of the ring buffer without a mutex do between the accesses of the other threads. A
call is judged against what the other side may do: to the reader the writer only adds bytes behind
those that are there, to the writer the reader only takes bytes away, and nobody opens a ring again.
-/

set_option autoImplicit false

namespace RootHelper
open Posix Control LockfreeRing

/-- A ring of capacity `c` with all the bytes that have been put into it, and how many of them have
been taken out. -/
structure Tracked (c : Nat) where
  ring : LockfreeRing
  taken : Nat
  sent : Str
  readIdx : ring.readIdx = (taken % c : Nat)
  writeIdx : ring.writeIdx = (sent.length % c : Nat)
  taken_le : taken ≤ sent.length
  room : sent.length < taken + c
  cells : ∀ k (h : k < sent.length), taken ≤ k → ring.ringbuffer (k % c) = sent[k]

namespace Tracked

variable {c : Nat}

def avail (t : Tracked c) : Nat := t.sent.length - t.taken

/-- The cells of the bytes that can be read. -/
def Readable (t : Tracked c) (i : Int) : Prop :=
  ∃ k : Nat, t.taken ≤ k ∧ k < t.sent.length ∧ i = (k % c : Nat)

def Free (t : Tracked c) (i : Int) : Prop :=
  ∃ k : Nat, t.sent.length ≤ k ∧ k < t.taken + c ∧ i = (k % c : Nat)

theorem readable_ne_free {t : Tracked c} {i j : Int} (hi : t.Readable i) (hj : t.Free j) : i ≠ j := by
  obtain ⟨k,htk,hk,rfl⟩ := hi
  obtain ⟨m,hm,hmc,rfl⟩ := hj
  intro he
  have hmod : k % c = m % c := by exact_mod_cast he
  have hdvd := (Nat.modEq_iff_dvd' (by omega : k ≤ m)).mp hmod
  have hle := Nat.le_of_dvd (by omega) hdvd
  omega

theorem avail_lt (t : Tracked c) : t.avail < c := by
  have := t.room
  have := t.taken_le
  unfold avail
  omega

theorem sent_length (t : Tracked c) : t.sent.length = t.taken + t.avail := by
  have := t.taken_le
  unfold avail
  omega

theorem write_at (t : Tracked c) : t.sent.length % c =
    if t.taken % c + t.avail < c then t.taken % c + t.avail else t.taken % c + t.avail - c := by
  have hr := Nat.mod_lt t.taken (Nat.zero_lt_of_lt t.avail_lt)
  have ha := t.avail_lt
  rw [t.sent_length,← Nat.mod_add_mod,Circular.mod_within (by omega)]

theorem cap_pos (t : Tracked c) : 0 < c := Nat.zero_lt_of_lt t.avail_lt

theorem new_start (memory : Nat → Byte) : (LockfreeRing.new memory).readIdx = (0 % c : Nat) ∧
    (LockfreeRing.new memory).writeIdx = (([] : Str).length % c : Nat) := by
  simp [LockfreeRing.new]

/-- A new ring: nothing has been put into it. -/
def start (hc : 0 < c) (memory : Nat → Byte) : Tracked c where
  ring := .new memory
  taken := 0
  sent := []
  readIdx := (new_start memory).1
  writeIdx := (new_start memory).2
  taken_le := Nat.le_refl 0
  room := Nat.lt_of_lt_of_eq hc (Nat.zero_add c).symm
  cells k h := absurd h (Nat.not_lt_zero k)

def closing (t : Tracked c) : Tracked c :=
  { t with ring := { t.ring with closed := true } }

/-- `n` bytes are taken. -/
def took (t : Tracked c) (n : Nat) (h : n ≤ t.avail) : Tracked c where
  ring := { t.ring with readIdx := ((t.taken + n) % c : Nat) }
  taken := t.taken + n
  sent := t.sent
  readIdx := rfl
  writeIdx := t.writeIdx
  taken_le := by have := t.sent_length; omega
  room := by have := t.room; omega
  cells k hk hle := t.cells k hk (by omega)

/-- A byte is put into a free cell, where it cannot be read yet. -/
def stored (t : Tracked c) (k : Nat) (b : Byte) (h : t.sent.length ≤ k) (h' : k < t.taken + c) :
    Tracked c where
  ring := { t.ring with ringbuffer := Circular.put t.ring.ringbuffer (k % c) [b] }
  taken := t.taken
  sent := t.sent
  readIdx := t.readIdx
  writeIdx := t.writeIdx
  taken_le := t.taken_le
  room := t.room
  cells j hj hle := by
    have hne := readable_ne_free (t := t) ⟨j,hle,hj,rfl⟩ ⟨k,h,h',rfl⟩
    rw [← t.cells j hj hle]
    refine Circular.put_out fun hin => hne ?_
    simp only [List.length_singleton] at hin
    exact_mod_cast (by omega : j % c = k % c)

/-- The bytes in the cells behind those that can be read are given to the reader. -/
def gave (t : Tracked c) (bs : Str) (h : t.avail + bs.length < c)
    (hcells : ∀ k (h : k < bs.length), t.ring.ringbuffer ((t.sent.length + k) % c) = bs[k]) :
    Tracked c where
  ring := { t.ring with writeIdx := ((t.sent.length + bs.length) % c : Nat) }
  taken := t.taken
  sent := t.sent ++ bs
  readIdx := t.readIdx
  writeIdx := by simp
  taken_le := by have := t.taken_le; simp; omega
  room := by have := t.sent_length; simp; omega
  cells k hk hle := by
    by_cases hlt : k < t.sent.length
    · rw [List.getElem_append_left hlt]
      exact t.cells k hlt hle
    · obtain ⟨m,rfl⟩ := Nat.exists_eq_add_of_le (Nat.le_of_not_lt hlt)
      rw [List.length_append] at hk
      rw [List.getElem_append_right (by omega)]
      simp only [Nat.add_sub_cancel_left]
      exact hcells m (by omega)

end Tracked

section Sides

variable {c : Nat}

/-- Between two accesses of the reader. -/
structure ReaderSees (t u : Tracked c) : Prop where
  taken : u.taken = t.taken
  sent : t.sent <+: u.sent
  closed : t.ring.closed → u.ring.closed

/-- Between two accesses of the writer. -/
structure WriterSees (t u : Tracked c) : Prop where
  taken : t.taken ≤ u.taken
  sent : u.sent = t.sent
  cells : u.ring.ringbuffer = t.ring.ringbuffer
  closed : t.ring.closed → u.ring.closed

instance : Std.Refl (ReaderSees (c := c)) := ⟨fun _ => ⟨rfl,List.prefix_rfl,id⟩⟩

instance : IsTrans (Tracked c) ReaderSees :=
  ⟨fun _ _ _ h h' => ⟨h'.1.trans h.1,h.2.trans h'.2,h'.3 ∘ h.3⟩⟩

instance : Std.Refl (WriterSees (c := c)) := ⟨fun _ => ⟨Nat.le_refl _,rfl,rfl,id⟩⟩

instance : IsTrans (Tracked c) WriterSees :=
  ⟨fun _ _ _ h h' => ⟨h.1.trans h'.1,h'.2.trans h.2,h'.3.trans h.3,h'.4 ∘ h.4⟩⟩

/-- The reader loads only bytes it can read, and stores none. -/
structure ReaderDoes (o : LockfreeOp) (t u : Tracked c) : Prop where
  sees : WriterSees t u
  closed : u.ring.closed = t.ring.closed
  loads : ∀ i, o = .loadCell i → t.Readable i
  stores : ∀ i b, o ≠ .storeCell i b

/-- The writer stores only into free cells, and loads none; what it gives is a part of `whole`. -/
structure WriterDoes (whole : Str) (o : LockfreeOp) (t u : Tracked c) : Prop where
  sees : ReaderSees t u
  within : t.sent <+: whole → u.sent <+: whole
  closed : u.ring.closed = t.ring.closed
  loads : ∀ i, o ≠ .loadCell i
  stores : ∀ i b, o = .storeCell i b → t.Free i

/-- Closing touches nothing else. -/
structure CloserDoes (o : LockfreeOp) (t u : Tracked c) : Prop where
  reader : ReaderSees t u
  writer : WriterSees t u
  loads : ∀ i, o ≠ .loadCell i
  stores : ∀ i b, o ≠ .storeCell i b

/-- An access that looks at an index or at the flag. -/
def LockfreeOp.Looks : LockfreeOp → Prop
  | loadClosed | loadRead | loadWrite => True
  | _ => False

theorem ReaderDoes.looks {o : LockfreeOp} (ho : o.Looks) (t : Tracked c) : ReaderDoes o t t :=
  ⟨refl_of _ t,rfl,fun i h => absurd ho (by simp [h,LockfreeOp.Looks]),
    fun i b h => absurd ho (by simp [h,LockfreeOp.Looks])⟩

theorem WriterDoes.looks {whole : Str} {o : LockfreeOp} (ho : o.Looks) (t : Tracked c) :
    WriterDoes whole o t t :=
  ⟨refl_of _ t,id,rfl,fun i h => absurd ho (by simp [h,LockfreeOp.Looks]),
    fun i b h => absurd ho (by simp [h,LockfreeOp.Looks])⟩

theorem CloserDoes.looks {o : LockfreeOp} (ho : o.Looks) (t : Tracked c) : CloserDoes o t t :=
  ⟨refl_of _ t,refl_of _ t,fun i h => absurd ho (by simp [h,LockfreeOp.Looks]),
    fun i b h => absurd ho (by simp [h,LockfreeOp.Looks])⟩

end Sides

section Looking

variable {c : Nat} {R : Tracked c → Tracked c → Prop} {G : LockfreeOp → Tracked c → Tracked c → Prop}
  {α : Type} {Q : α → Tracked c → Prop} {t : Tracked c}

/-- A call of a thread on a ring of capacity `c`. -/
abbrev SafeCall (R : Tracked c → Tracked c → Prop) (G : LockfreeOp → Tracked c → Tracked c → Prop)
    {α : Type} (p : LockfreeM α) (Q : α → Tracked c → Prop) (t : Tracked c) : Prop :=
  p.Safe (LockfreeOp.perform c) Tracked.ring R G Q t

variable (hG : ∀ o, o.Looks → ∀ t, G o t t)

include hG

theorem safe_loadClosed {f : Bool → LockfreeM α}
    (h : ∀ u, R t u → SafeCall R G (f u.ring.closed) Q u) : SafeCall R G (loadClosed >>= f) Q t :=
  fun u hu => ⟨u.ring.closed,u,rfl,hG .loadClosed trivial u,h u hu⟩

theorem safe_loadRead {f : Int → LockfreeM α}
    (h : ∀ u, R t u → SafeCall R G (f (u.taken % c : Nat)) Q u) :
    SafeCall R G (loadRead >>= f) Q t :=
  fun u hu => ⟨u.ring.readIdx,u,rfl,hG .loadRead trivial u,by rw [u.readIdx]; exact h u hu⟩

theorem safe_loadWrite {f : Int → LockfreeM α}
    (h : ∀ u, R t u → SafeCall R G (f (u.sent.length % c : Nat)) Q u) :
    SafeCall R G (loadWrite >>= f) Q t :=
  fun u hu => ⟨u.ring.writeIdx,u,rfl,hG .loadWrite trivial u,by rw [u.writeIdx]; exact h u hu⟩

end Looking

section Arithmetic

variable {c a b k : Nat} (fits : 3*c < 2^31)

include fits

theorem int_distance (h : a ≤ b) (h' : b < a + c) :
    (int (int (((b % c : Nat) : Int) - (a % c : Nat)) + c)).tmod c = (b - a : Nat) := by
  have hidx : (a % c + (b - a)) % c = b % c := by
    rw [Nat.mod_add_mod]
    congr 1
    omega
  have hholds : (RingBuffer.mk false false c (fun _ => 0) (a % c : Nat) (b % c : Nat)).Holds c (a % c)
      (b - a) := ⟨rfl,rfl,by rw [hidx],by omega,Nat.mod_lt _ (by omega),fits⟩
  exact hholds.distance

theorem int_next (hc : 0 < c) (hk : k ≤ c) :
    (int (int (((a % c : Nat) : Int) + k) + c)).tmod c = ((a + k) % c : Nat) := by
  have ha : a % c < c := Nat.mod_lt _ hc
  have hsum : int (((a % c : Nat) : Int) + k) = (a % c : Nat) + k := by
    refine int_of_small ?_ ?_ <;> omega
  have hadd : int (((a % c : Nat) : Int) + k + c) = ((a % c + k + c : Nat) : Int) := by
    rw [int_of_small] <;> omega
  rw [hsum,hadd,← Int.ofNat_tmod,Nat.add_mod_right,Nat.mod_add_mod]

omit fits in
theorem mod_straight {n i : Nat} (h : k % c + n ≤ c) (hi : i < n) : (k + i) % c = k % c + i := by
  rw [← Nat.mod_add_mod,Nat.mod_eq_of_lt (by omega)]

end Arithmetic

/-! ### The reader -/

section Reader

variable {c : Nat} {α : Type} {Q : α → Tracked c → Prop} {t : Tracked c}

abbrev ReaderSafe (p : LockfreeM α) (Q : α → Tracked c → Prop) (t : Tracked c) : Prop :=
  SafeCall ReaderSees ReaderDoes p Q t

theorem ReaderSees.avail {u : Tracked c} (h : ReaderSees t u) : t.avail ≤ u.avail := by
  have hlen := h.sent.length_le
  have htaken := h.taken
  unfold Tracked.avail
  omega

theorem ReaderSees.part {u : Tracked c} {k n : Nat} (h : ReaderSees t u)
    (hk : k + n ≤ t.sent.length) : (u.sent.drop k).take n = (t.sent.drop k).take n := by
  obtain ⟨more,hmore⟩ := h.sent
  rw [← hmore,List.drop_append_of_le_length (by omega),List.take_append_of_le_length]
  rw [List.length_drop]
  omega

theorem reader_looks (o : LockfreeOp) (ho : o.Looks) (t : Tracked c) : ReaderDoes o t t :=
  .looks ho t

theorem mod_eq_iff_avail (t : Tracked c) : (t.taken % c : Nat) = (t.sent.length % c : Nat) ↔ t.avail = 0 := by
  have hlen := t.sent_length
  have havail := t.avail_lt
  constructor
  · intro h
    have hdvd := (Nat.modEq_iff_dvd' (by omega : t.taken ≤ t.sent.length)).mp h
    by_contra hne
    have hle := Nat.le_of_dvd (by omega) hdvd
    omega
  · intro h
    rw [hlen,h,Nat.add_zero]

/-- `isEmpty` tells of a moment since it was called: by now more may have come in. -/
def SeenEmpty (t u : Tracked c) : Prop :=
  ∃ v : Tracked c, ReaderSees t v ∧ v.avail = 0 ∧ ReaderSees v u

theorem SeenEmpty.later {u v : Tracked c} (h : SeenEmpty t u) (hv : ReaderSees u v) : SeenEmpty t v := by
  obtain ⟨w,htw,hw,hwu⟩ := h
  exact ⟨w,htw,hw,trans_of _ hwu hv⟩

theorem SeenEmpty.sees {u : Tracked c} (h : SeenEmpty t u) : ReaderSees t u := by
  obtain ⟨w,htw,_,hwu⟩ := h
  exact trans_of _ htw hwu

theorem reader_isEmpty : ReaderSafe isEmpty
    (fun e u => ReaderSees t u ∧ (e = true → SeenEmpty t u) ∧ (e = false → 0 < u.avail)) t := by
  refine safe_loadRead reader_looks fun u hu => safe_loadWrite reader_looks fun v hv => ?_
  have hiff : ((u.taken % c : Nat) : Int) = (v.sent.length % c : Nat) ↔ v.avail = 0 := by
    rw [← hv.taken,← mod_eq_iff_avail]
    exact Int.natCast_inj
  have htv : ReaderSees t v := trans_of _ hu hv
  refine Thread.safe_pure fun w hw => ⟨trans_of _ htv hw,fun he => ?_,fun he => ?_⟩
  · exact ⟨v,htv,hiff.mp (of_decide_eq_true he),hw⟩
  · have hne : v.avail ≠ 0 := fun h => of_decide_eq_false he (hiff.mpr h)
    have hle := hw.avail
    omega

theorem reader_loadCell {f : Byte → LockfreeM α} {k : Nat} {i : Int} (htk : t.taken ≤ k)
    (hk : k < t.sent.length) (hi : i = (k % c : Nat))
    (h : ∀ u, ReaderSees t u → ReaderSafe (f t.sent[k]) Q u) : ReaderSafe (loadCell i >>= f) Q t := by
  intro u hu
  have hk' : k < u.sent.length := Nat.lt_of_lt_of_le hk hu.sent.length_le
  have htk' : u.taken ≤ k := by rw [hu.taken]; exact htk
  have hcell : u.ring.ringbuffer i.toNat = t.sent[k] := by
    rw [hi,Int.toNat_natCast,u.cells k hk' htk']
    exact (hu.sent.getElem hk).symm
  have hin : 0 ≤ i ∧ i < c := by
    have := Nat.mod_lt k u.cap_pos
    omega
  refine ⟨t.sent[k],u,?_,⟨refl_of _ u,rfl,fun j hj => ?_,fun j b h => by simp at h⟩,?_⟩
  · simp only [LockfreeOp.perform,if_pos hin,hcell]
  · obtain rfl : i = j := LockfreeOp.loadCell.inj hj
    exact ⟨k,htk',hk',hi⟩
  · exact h u hu

theorem reader_loadCells {k off n : Nat} (htk : t.taken ≤ k) (hk : k + n ≤ t.sent.length)
    (hidx : ∀ i, i < n → (k + i) % c = off + i) :
    ReaderSafe (loadCells off n)
      (fun bs u => bs = (t.sent.drop k).take n ∧ ReaderSees t u) t := by
  induction n generalizing k off t with
  | zero => exact Thread.safe_pure fun u hu => ⟨by simp,hu⟩
  | succ n ih =>
    have hlt : k < t.sent.length := by omega
    have hoff : k % c = off := by simpa using hidx 0 (Nat.succ_pos n)
    refine reader_loadCell htk hlt (by rw [hoff]) fun u hu => ?_
    have hstep : ∀ i, i < n → (k + 1 + i) % c = off + 1 + i := fun i hi => by
      have := hidx (i+1) (by omega)
      rw [Nat.add_assoc,Nat.add_comm 1 i,this]
      omega
    have hrest : ReaderSafe (loadCells (off+1 : Nat) n)
        (fun bs v => bs = (u.sent.drop (k+1)).take n ∧ ReaderSees u v) u :=
      ih (by rw [hu.taken]; omega) (by have := hu.sent.length_le; omega) hstep
    refine Thread.Safe.thenDo hrest fun bs v hbs => Thread.safe_pure fun w hw => ⟨?_,?_⟩
    · rw [hbs.1,hu.part (by omega),List.drop_eq_getElem_cons hlt,List.take_succ_cons]
    · exact trans_of _ (trans_of _ hu hbs.2) hw

theorem reader_memcpyFrom {k off n : Nat} (htk : t.taken ≤ k) (hk : k + n ≤ t.sent.length)
    (hidx : ∀ i, i < n → (k + i) % c = off + i) : ReaderSafe (memcpyFrom off n)
      (fun bs u => bs = (t.sent.drop k).take n ∧ ReaderSees t u) t := by
  rw [memcpyFrom,if_neg (by omega),Int.toNat_natCast]
  exact reader_loadCells htk hk hidx

theorem reader_straight {n : Nat} (hn : n ≤ t.avail) (h : t.taken % c + n ≤ c) :
    ReaderSafe (do let readIdx ← loadRead; memcpyFrom readIdx n)
      (fun bs u => bs = (t.sent.drop t.taken).take n ∧ ReaderSees t u) t := by
  refine safe_loadRead reader_looks fun u hu => ?_
  have hlen := u.sent_length
  have havail := hu.avail
  have hcopy := reader_memcpyFrom (t := u) (k := u.taken) (n := n) (Nat.le_refl _) (by omega)
    fun i hi => mod_straight (n := n) (by rw [hu.taken]; exact h) hi
  refine hcopy.mono fun bs v hbs => ⟨?_,trans_of _ hu hbs.2⟩
  have htlen := t.sent_length
  rw [hbs.1,hu.taken,hu.part (by omega)]

theorem reader_wrapped {pre post : Nat} (hn : pre + post ≤ t.avail) (h : t.taken % c + pre = c) :
    ReaderSafe (do
      let readIdx ← loadRead
      let a ← memcpyFrom readIdx pre
      let b ← memcpyFrom 0 post
      pure (a ++ b))
      (fun bs u => bs = (t.sent.drop t.taken).take (pre + post) ∧ ReaderSees t u) t := by
  refine safe_loadRead reader_looks fun u hu => ?_
  have htlen := t.sent_length
  have hulen := hu.sent.length_le
  have hcap := t.avail_lt
  have hfirst := reader_memcpyFrom (t := u) (k := u.taken) (n := pre) (Nat.le_refl _)
    (by rw [hu.taken]; omega) fun i hi => mod_straight (n := pre) (by rw [hu.taken]; omega) hi
  refine hfirst.thenDo fun a v ⟨ha,hv⟩ => ?_
  have htv : ReaderSees t v := trans_of _ hu hv
  have hvlen := htv.sent.length_le
  have hsecond : ReaderSafe (memcpyFrom (0 : Nat) post)
      (fun bs w => bs = (v.sent.drop (v.taken + pre)).take post ∧ ReaderSees v w) v :=
    reader_memcpyFrom (Nat.le_add_right _ _) (by rw [htv.taken]; omega) fun i hi => by
      rw [htv.taken,Nat.add_assoc,← Nat.mod_add_mod,← Nat.add_assoc,h,Nat.add_mod_left,
        Nat.mod_eq_of_lt (by omega),Nat.zero_add]
  refine hsecond.thenDo fun b w ⟨hb,hw⟩ => Thread.safe_pure fun x hx => ⟨?_,?_⟩
  · rw [ha,hb,hu.taken,htv.taken,hu.part (by omega),htv.part (by omega),List.take_add,List.drop_drop]
  · exact trans_of _ (trans_of _ htv hw) hx

theorem reader_closedAndEmpty (h : 0 < t.avail) :
    ReaderSafe closedAndEmpty (fun done u => done = false ∧ ReaderSees t u) t := by
  refine safe_loadClosed reader_looks fun u hu => ?_
  have hpos : 0 < u.avail := Nat.lt_of_lt_of_le h hu.avail
  split
  · refine reader_isEmpty.mono fun e v ⟨hv,hyes,_⟩ => ⟨?_,trans_of _ hu hv⟩
    cases e with
    | false => rfl
    | true =>
      obtain ⟨w,huw,hw,_⟩ := hyes rfl
      have := huw.avail
      omega
  · exact Thread.safe_pure fun v hv => ⟨rfl,trans_of _ hu hv⟩

variable (fits : 3*c < 2^31)

include fits

theorem reader_distance : ReaderSafe (oneDirCircularDistance c)
    (fun x u => ∃ d : Nat, x = d ∧ t.avail ≤ d ∧ d ≤ u.avail ∧ ReaderSees t u) t := by
  refine safe_loadWrite reader_looks fun u hu => safe_loadRead reader_looks fun v hv => ?_
  refine Thread.safe_pure fun w hw => ⟨u.avail,?_,hu.avail,(trans_of _ hv hw).avail,?_⟩
  · rw [hv.taken,int_distance fits u.taken_le u.room]
    rfl
  · exact trans_of _ (trans_of _ hu hv) hw

/-- Whichever branch the indices lead to, also when the writer has gone around in between. -/
theorem reader_readBytes {n : Nat} (hn : n ≤ t.avail) (hpos : 0 < t.avail) :
    ReaderSafe (readBytes c n)
      (fun bs u => bs = (t.sent.drop t.taken).take n ∧ ReaderSees t u) t := by
  refine safe_loadWrite reader_looks fun u hu => safe_loadRead reader_looks fun v hv => ?_
  have htv : ReaderSees t v := trans_of _ hu hv
  have hat := u.write_at
  have hua := hu.avail
  have hva := htv.avail
  have huc := u.avail_lt
  have hr := Nat.mod_lt t.taken t.cap_pos
  have htlen := t.sent_length
  have huse : ∀ {w : Tracked c} {p : LockfreeM Str}, ReaderSees t w →
      ReaderSafe p (fun bs x => bs = (w.sent.drop w.taken).take n ∧ ReaderSees w x) w →
      ReaderSafe p (fun bs x => bs = (t.sent.drop t.taken).take n ∧ ReaderSees t x) w := by
    intro w p hw hp
    refine hp.mono fun bs x hbs => ⟨?_,trans_of _ hw hbs.2⟩
    rw [hbs.1,hw.taken,hw.part (by omega)]
  have hbehind : u.sent.length % c < t.taken % c ↔ c ≤ t.taken % c + u.avail := by
    rw [hat,hu.taken]
    split <;> omega
  rw [htv.taken]
  split
  · refine safe_loadRead reader_looks fun w hw => ?_
    have htw : ReaderSees t w := trans_of _ htv hw
    have hwa := htw.avail
    have hpre : int ((c : Int) - (w.taken % c : Nat)) = (c - t.taken % c : Nat) := by
      rw [htw.taken,int_of_small] <;> omega
    rw [hpre]
    dsimp only
    split
    · rename_i hsplit
      have hpost : int ((n : Int) - (c - t.taken % c : Nat)) = (n - (c - t.taken % c) : Nat) := by
        rw [int_of_small] <;> omega
      rw [hpost,if_neg (by omega)]
      have hsum : c - t.taken % c + (n - (c - t.taken % c)) = n := by omega
      refine huse htw ?_
      have hin : c - t.taken % c + (n - (c - t.taken % c)) ≤ w.avail := by omega
      have hcopy := reader_wrapped hin (by rw [htw.taken]; omega)
      rwa [hsum] at hcopy
    · exact huse htw (reader_straight (by omega) (by rw [htw.taken]; omega))
  · rename_i hnot
    refine safe_loadWrite reader_looks fun w hw => safe_loadRead reader_looks fun x hx => ?_
    have htw : ReaderSees t w := trans_of _ htv hw
    have htx : ReaderSees t x := trans_of _ htw hx
    have hwa := htw.avail
    have hne : ¬ ((w.sent.length % c : Nat) : Int) = (x.taken % c : Nat) := by
      rw [hx.taken]
      intro he
      have := (mod_eq_iff_avail w).mp (by exact_mod_cast he.symm)
      omega
    rw [if_neg hne]
    have hxa := htx.avail
    refine huse htx (reader_straight (by omega) ?_)
    rw [htx.taken]
    -- the writer was not behind the reader, so that the bytes do not cross the boundary
    omega

/-- After a read that took `n` bytes. -/
structure TookFrom (t : Tracked c) (n : Nat) (u : Tracked c) : Prop where
  taken : u.taken = t.taken + n
  sent : t.sent <+: u.sent
  closed : t.ring.closed → u.ring.closed

omit fits in
theorem TookFrom.later {n : Nat} {u v : Tracked c} (h : TookFrom t n u) (hv : ReaderSees u v) :
    TookFrom t n v := ⟨hv.taken.trans h.taken,h.sent.trans hv.sent,hv.closed ∘ h.closed⟩

omit fits in
theorem TookFrom.since {n : Nat} {s u : Tracked c} (hs : ReaderSees s t) (h : TookFrom t n u) :
    TookFrom s n u := ⟨by rw [h.taken,hs.taken],hs.sent.trans h.sent,h.closed ∘ hs.closed⟩

theorem reader_incrementRead {n : Nat} (hn : n ≤ t.avail) :
    ReaderSafe (incrementRead c n) (fun _ u => TookFrom t n u) t := by
  refine (reader_distance fits).thenDo fun x u ⟨d,hx,htd,_,htu⟩ => ?_
  have hcap := t.avail_lt
  rw [hx,if_neg (by omega)]
  refine safe_loadRead reader_looks fun v hv w hw => ?_
  have htw : ReaderSees t w := trans_of _ (trans_of _ htu hv) hw
  have hle : n ≤ w.avail := hn.trans htw.avail
  refine ⟨(),w.took n hle,?_,⟨⟨Nat.le_add_right _ _,rfl,rfl,id⟩,rfl,fun i h => by simp at h,
    fun i b h => by simp at h⟩,fun x hx => ?_⟩
  · simp only [LockfreeOp.perform]
    rw [int_next fits w.cap_pos (by omega),← hw.taken]
    rfl
  · have htook : TookFrom w n (w.took n hle) := ⟨rfl,List.prefix_rfl,id⟩
    exact (htook.later hx).since htw

/-- What a call of `read` gives that began at `t`. -/
structure ReadDone (t : Tracked c) (count : Nat) (r : Int × Str) (u : Tracked c) : Prop where
  number : r.1 = r.2.length
  atMost : r.2.length ≤ count
  took : TookFrom t r.2.length u
  bytes : r.2 = (u.sent.drop t.taken).take r.2.length
  enough : min count t.avail ≤ r.2.length
  ended : 0 < count → r.2 = [] → u.ring.closed

theorem reader_readCopy {count : Nat} (hpos : 0 < t.avail) :
    ReaderSafe (readCopy c count) (ReadDone t count) t := by
  refine (reader_distance fits).thenDo fun x u ⟨d,hx,htd,hdu,htu⟩ => ?_
  have hcap := u.avail_lt
  have hk : RingBuffer.bytesToBeCopied count x = (min count d : Nat) :=
    RingBuffer.bytesToBeCopied_eq hx (by omega)
  rw [hk]
  have hcopy := reader_readBytes fits (t := u) (n := min count d) (by omega) (by omega)
  refine hcopy.thenDo fun buf v ⟨hbuf,huv⟩ => ?_
  have hva := huv.avail
  refine (reader_incrementRead fits (by omega)).thenDo fun _ w hw => Thread.safe_pure fun y hy => ?_
  have hulen := u.sent_length
  have hlen : buf.length = min count d := by
    rw [hbuf,List.length_take,List.length_drop]
    omega
  have htook : TookFrom t (min count d) y := (hw.later hy).since (trans_of _ htu huv)
  have huy : u.sent <+: y.sent := huv.sent.trans (hw.later hy).sent
  have htaken := htu.taken
  refine ⟨by simp [hlen],by simp only [hlen]; omega,by simpa only [hlen] using htook,?_,
    by simp only [hlen]; omega,fun hcount hnil => ?_⟩
  · obtain ⟨more,hmore⟩ := huy
    simp only [hlen]
    rw [hbuf,htu.taken,← hmore,List.drop_append_of_le_length (by omega),
      List.take_append_of_le_length]
    rw [List.length_drop]
    omega
  · have hbuf : buf = [] := hnil
    rw [hbuf,List.length_nil] at hlen
    omega

theorem reader_read (count : Nat) : ReaderSafe (read c count) (ReadDone t count) t := by
  have hpoll : ReaderSafe (Thread.again readPoll .back)
      (fun more u => ReaderSees t u ∧ (more = true → 0 < u.avail) ∧
        (more = false → u.ring.closed ∧ t.avail = 0)) t := by
    refine Thread.safe_again (ReaderSees t) (refl_of _ t) (fun _ _ => trans_of _) fun u hu => ?_
    refine reader_isEmpty.thenDo fun e v ⟨huv,hyes,hno⟩ => ?_
    have htv : ReaderSees t v := trans_of _ hu huv
    cases e with
    | false =>
      refine Thread.safe_pure fun w hw x hx => ⟨trans_of _ (trans_of _ htv hw) hx,fun _ => ?_,by simp⟩
      have hpos := hno rfl
      have hwx := (trans_of _ hw hx : ReaderSees v x).avail
      omega
    | true =>
      refine safe_loadClosed reader_looks fun w hw => Thread.safe_pure fun x hx => ?_
      have htx : ReaderSees t x := trans_of _ (trans_of _ htv hw) hx
      by_cases hclosed : w.ring.closed
      · rw [if_pos hclosed]
        obtain ⟨z,huz,hz,_⟩ := hyes rfl
        have hle := (trans_of _ hu huz : ReaderSees t z).avail
        exact fun y hy => ⟨trans_of _ htx hy,by simp,fun _ =>
          ⟨(trans_of _ hx hy : ReaderSees w y).closed hclosed,by omega⟩⟩
      · rw [if_neg hclosed]
        exact htx
  refine hpoll.thenDo fun more u ⟨htu,hmore,hend⟩ => ?_
  cases more with
  | false =>
    obtain ⟨hclosed,hempty⟩ := hend rfl
    have htook : TookFrom t 0 u := ⟨htu.taken,htu.sent,htu.closed⟩
    exact Thread.safe_pure fun v hv => ⟨rfl,Nat.zero_le _,htook.later hv,rfl,by simp [hempty],
      fun _ _ => hv.closed hclosed⟩
  | true =>
    refine (reader_closedAndEmpty (hmore rfl)).thenDo fun done v ⟨hdone,huv⟩ => ?_
    subst hdone
    have htv : ReaderSees t v := trans_of _ htu huv
    have hpos : 0 < v.avail := Nat.lt_of_lt_of_le (hmore rfl) huv.avail
    refine (reader_readCopy fits hpos).mono fun r w hr => ?_
    have hle := htv.avail
    have henough := hr.enough
    exact ⟨hr.number,hr.atMost,hr.took.since htv,by rw [← htv.taken]; exact hr.bytes,by omega,hr.ended⟩

end Reader

end RootHelper
