import RootHelper.Circular.Window
import RootHelper.Control.Programs
import RootHelper.Posix.Paths

/-!
The ring buffer between the thread that receives records and the one that reads them, operation by
operation. An operation is given up to the point where it would wait and from there on, because
the ring may change in between.
-/

set_option autoImplicit false

namespace RootHelper
open Posix Control Circular

/-- What an `int` keeps of a result. -/
def int (x : Int) : Int := x.bmod (2^32)

/-- An `int` where a `size_t` is asked for. -/
def sizeT (x : Int) : Nat := (x % 2^64).toNat

theorem int_of_small {x : Int} (h : -2^31 ≤ x) (h' : x < 2^31) : int x = x := by
  unfold int
  rw [Int.bmod_def]
  omega

theorem sizeT_of_small {n : Nat} (h : n < 2^31) : sizeT n = n := by
  unfold sizeT
  omega

/-- An `_Exit` with its code, or a copy that leaves the buffer. -/
inductive RingFault where
  | exit (code : Nat)
  | outOfBounds
  deriving DecidableEq, Repr

structure RingBuffer where
  closed : Bool
  brokenConnection : Bool
  capacity : Int
  ringbuffer : Nat → Byte
  readIdx : Int
  writeIdx : Int

abbrev RingM := EStateM RingFault RingBuffer

namespace RingBuffer

def new (capacity : Int) (ringbuffer : Nat → Byte) : RingBuffer where
  closed := false
  brokenConnection := false
  capacity := capacity
  ringbuffer := ringbuffer
  readIdx := 0
  writeIdx := 0

def oneDirCircularDistance (rb : RingBuffer) : Int :=
  (int (int (rb.writeIdx - rb.readIdx) + rb.capacity)).tmod rb.capacity

def incrementRead (offset : Int) : RingM Unit := do
  let rb ← get
  if rb.oneDirCircularDistance < offset then throw (.exit 89)
  else set { rb with
    readIdx := (int (int (rb.readIdx + offset) + rb.capacity)).tmod rb.capacity }

def incrementWrite (offset : Int) : RingM Unit := do
  let rb ← get
  if int (int (rb.capacity - rb.oneDirCircularDistance) - 1) < offset then throw (.exit 107)
  else
    let newWriteIdx := int (rb.writeIdx + offset)
    set { rb with writeIdx := (int (newWriteIdx + rb.capacity)).tmod rb.capacity }

/-- `n` bytes out of the buffer. -/
def memcpyFrom (off n : Int) : RingM Str := do
  let rb ← get
  if 0 ≤ off ∧ 0 ≤ n ∧ off + n ≤ rb.capacity then pure (slice rb.ringbuffer off.toNat n.toNat)
  else throw .outOfBounds

/-- The first `n` bytes of `src` into the buffer. -/
def memcpyTo (off : Int) (src : Str) (n : Int) : RingM Unit := do
  let rb ← get
  if 0 ≤ off ∧ 0 ≤ n ∧ off + n ≤ rb.capacity ∧ n ≤ src.length then
    set { rb with ringbuffer := put rb.ringbuffer off.toNat (src.take n.toNat) }
  else throw .outOfBounds

def close (brokenConnection_ : Bool) : RingM Unit := do
  let rb ← get
  if rb.closed then pure ()
  else set { rb with closed := true, brokenConnection := brokenConnection_ }

def reset : RingM Unit := modify fun rb => { rb with readIdx := 0, writeIdx := 0, closed := false }

/-- The result of `read` at the end of the stream. -/
def eof (rb : RingBuffer) : Int := if rb.brokenConnection then -1 else 0

/-- `count>max?max:count`: compared as `size_t`, kept as `int`. -/
def bytesToBeCopied (count : Nat) (max : Int) : Int :=
  int ((if sizeT max < count then sizeT max else count : Nat) : Int)

/-- `read` once there is something to read. -/
def readCopy (count : Nat) : RingM (Int × Str) := do
  let rb ← get
  let bytesToBeCopied := bytesToBeCopied count rb.oneDirCircularDistance
  let buf ← (
    if rb.writeIdx < rb.readIdx then do
      let preBoundaryBytes := int (rb.capacity - rb.readIdx)
      if preBoundaryBytes < bytesToBeCopied then do
        let postBoundaryBytes := int (bytesToBeCopied - preBoundaryBytes)
        if postBoundaryBytes < 0 then throw (.exit 109)
        else do
          let a ← memcpyFrom rb.readIdx preBoundaryBytes
          let b ← memcpyFrom 0 postBoundaryBytes
          pure (a ++ b)
      else memcpyFrom rb.readIdx bytesToBeCopied
    else if rb.writeIdx = rb.readIdx then throw (.exit 119)
    else memcpyFrom rb.readIdx bytesToBeCopied)
  incrementRead bytesToBeCopied
  pure (bytesToBeCopied,buf)

def read (count : Nat) : RingM (Option (Int × Str)) := do
  let rb ← get
  if rb.readIdx = rb.writeIdx then
    if rb.closed then pure (some (rb.eof,[])) else pure none
  else some <$> readCopy count

/-- `read` from where its wait ends. -/
def readWoken (count : Nat) : RingM (Int × Str) := do
  let rb ← get
  if rb.closed ∧ rb.readIdx = rb.writeIdx then pure (rb.eof,[]) else readCopy count

/-- `write` once it does not wait any more. -/
def writeCopy (buf : Str) : RingM Int := do
  let rb ← get
  let maxWritable := int (int (rb.capacity - 1) - rb.oneDirCircularDistance)
  if maxWritable < 0 then throw (.exit 103)
  else do
    let bytesToBeCopied := bytesToBeCopied buf.length maxWritable
    if rb.readIdx ≤ rb.writeIdx then do
      let preBoundaryBytes := int (rb.capacity - rb.writeIdx)
      if preBoundaryBytes < 0 then throw (.exit 101)
      else if preBoundaryBytes < bytesToBeCopied then do
        let postBoundaryBytes := int (bytesToBeCopied - preBoundaryBytes)
        if postBoundaryBytes < 0 then throw (.exit 97)
        else do
          memcpyTo rb.writeIdx buf preBoundaryBytes
          if 0 < postBoundaryBytes then
            memcpyTo 0 (buf.drop preBoundaryBytes.toNat) postBoundaryBytes
          else pure ()
      else memcpyTo rb.writeIdx buf bytesToBeCopied
    else memcpyTo rb.writeIdx buf bytesToBeCopied
    incrementWrite bytesToBeCopied
    pure bytesToBeCopied

def isFull (rb : RingBuffer) : Bool := rb.oneDirCircularDistance = int (rb.capacity - 1)

def write (buf : Str) : RingM (Option Int) := do
  let rb ← get
  if rb.closed then pure (some (-1))
  else if rb.isFull then pure none
  else some <$> writeCopy buf

/-- `write` from where its wait ends. -/
def writeWoken (buf : Str) : RingM Int := do
  let rb ← get
  if rb.closed then pure (-1) else writeCopy buf

/-- The ring of capacity `c` holds `n` bytes from cell `r` on; the arithmetic stays in an `int`. -/
structure Holds (rb : RingBuffer) (c r n : Nat) : Prop where
  capacity : rb.capacity = c
  readIdx : rb.readIdx = r
  writeIdx : rb.writeIdx = ((r + n) % c : Nat)
  room : n < c
  inside : r < c
  fits : 3*c < 2^31

def content (rb : RingBuffer) : Str :=
  window rb.capacity.toNat rb.ringbuffer rb.readIdx.toNat rb.oneDirCircularDistance.toNat

variable {rb : RingBuffer} {c r n : Nat}

theorem tmod_within {x : Int} (h : 0 ≤ x) (h' : x < 2*c) : x.tmod c = if x < c then x else x - c := by
  rw [Int.tmod_eq_emod_of_nonneg h]
  split
  · exact Int.emod_eq_of_lt h (by omega)
  · rw [← Int.sub_emod_right]
    exact Int.emod_eq_of_lt (by omega) (by omega)

theorem Holds.write_at (h : rb.Holds c r n) :
    rb.writeIdx = if r + n < c then (r : Int) + n else r + n - c := by
  rw [h.writeIdx,mod_within (by have := h.room; have := h.inside; omega)]
  split
  · push_cast
    rfl
  · have hroom := h.room
    omega

theorem Holds.distance (h : rb.Holds c r n) : rb.oneDirCircularDistance = n := by
  have hw := h.write_at
  obtain ⟨hc,hr,_,hroom,hin,hfits⟩ := h
  have hsub : int (rb.writeIdx - rb.readIdx) = rb.writeIdx - rb.readIdx := by
    refine int_of_small ?_ ?_ <;> (rw [hw,hr]; split <;> omega)
  have hadd : int (rb.writeIdx - rb.readIdx + rb.capacity) = rb.writeIdx - rb.readIdx + rb.capacity := by
    refine int_of_small ?_ ?_ <;> (rw [hw,hr,hc]; split <;> omega)
  unfold oneDirCircularDistance
  rw [hsub,hadd,hw,hr,hc,tmod_within]
  · split <;> split <;> omega
  · split <;> omega
  · split <;> omega

theorem Holds.content_eq (h : rb.Holds c r n) : rb.content = window c rb.ringbuffer r n := by
  simp [content,h.distance,h.capacity,h.readIdx]

theorem Holds.empty_iff (h : rb.Holds c r n) : rb.readIdx = rb.writeIdx ↔ n = 0 := by
  have hw := h.write_at
  obtain ⟨_,hr,_,hroom,hin,_⟩ := h
  rw [hw,hr]
  split <;> omega

theorem Holds.isFull_iff (h : rb.Holds c r n) : rb.isFull ↔ n = c - 1 := by
  have hd := h.distance
  obtain ⟨hc,_,_,hroom,hin,hfits⟩ := h
  unfold isFull
  rw [hd,hc,int_of_small (by omega) (by omega),decide_eq_true_eq]
  omega

section Operations

variable {k : Nat} {E : RingFault → RingBuffer → Prop}

theorem Holds.advanced (h : rb.Holds c r n) (hk : k ≤ n) :
    { rb with readIdx := ((r+k) % c : Nat) }.Holds c ((r+k) % c) (n-k) := by
  obtain ⟨hc,_,hw,hroom,hin,hfits⟩ := h
  refine ⟨hc,rfl,?_,by omega,Nat.mod_lt _ (by omega),hfits⟩
  have hsum : r + k + (n - k) = r + n := by omega
  rw [Nat.mod_add_mod,hsum]
  exact hw

theorem wp_incrementRead {Q : Unit → RingBuffer → Prop} (h : rb.Holds c r n) (hk : k ≤ n)
    (hQ : Q () { rb with readIdx := ((r+k) % c : Nat) }) : wp (incrementRead k) Q E rb := by
  have hd := h.distance
  obtain ⟨hc,hr,_,hroom,hin,hfits⟩ := h
  have hnext : (int (int (rb.readIdx + k) + rb.capacity)).tmod rb.capacity = ((r+k) % c : Nat) := by
    have hsum : int (rb.readIdx + k) = rb.readIdx + k := by
      refine int_of_small ?_ ?_ <;> omega
    have hadd : int (rb.readIdx + k + rb.capacity) = ((r + k + c : Nat) : Int) := by
      rw [int_of_small] <;> omega
    rw [hsum,hadd,hc,← Int.ofNat_tmod,Nat.add_mod_right]
  have hle : ¬ rb.oneDirCircularDistance < (k : Int) := by omega
  simp only [incrementRead,wp_bind,wp_get]
  rw [if_neg hle,wp_set,hnext]
  exact hQ

theorem wp_incrementWrite {Q : Unit → RingBuffer → Prop} (h : rb.Holds c r n) (hk : n + k < c)
    (hQ : Q () { rb with writeIdx := ((r+n+k) % c : Nat) }) : wp (incrementWrite k) Q E rb := by
  have hd := h.distance
  obtain ⟨hc,_,hw,hroom,hin,hfits⟩ := h
  have hwlt : (r + n) % c < c := Nat.mod_lt _ (by omega)
  have hnext : (int (int (rb.writeIdx + k) + rb.capacity)).tmod rb.capacity =
      ((r+n+k) % c : Nat) := by
    have hsum : int (rb.writeIdx + k) = rb.writeIdx + k := by
      refine int_of_small ?_ ?_ <;> omega
    have hadd : int (rb.writeIdx + k + rb.capacity) = (((r + n) % c + k + c : Nat) : Int) := by
      rw [int_of_small] <;> omega
    rw [hsum,hadd,hc,← Int.ofNat_tmod,Nat.add_mod_right,Nat.mod_add_mod]
  have hfree : int (int (rb.capacity - rb.oneDirCircularDistance) - 1) = (c : Int) - n - 1 := by
    have hsub : int (rb.capacity - rb.oneDirCircularDistance) = (c : Int) - n := by
      rw [hd,hc]
      refine int_of_small ?_ ?_ <;> omega
    rw [hsub]
    refine int_of_small ?_ ?_ <;> omega
  have hle : ¬ int (int (rb.capacity - rb.oneDirCircularDistance) - 1) < (k : Int) := by omega
  simp only [incrementWrite,wp_bind,wp_get]
  rw [if_neg hle,wp_set,hnext]
  exact hQ

theorem wp_memcpyFrom {Q : Str → RingBuffer → Prop} {off : Nat} (hc : rb.capacity = c)
    (h : off + k ≤ c) (hQ : Q (slice rb.ringbuffer off k) rb) : wp (memcpyFrom off k) Q E rb := by
  simp only [memcpyFrom,wp_bind,wp_get]
  rw [if_pos (by omega)]
  exact hQ

theorem wp_memcpyTo {Q : Unit → RingBuffer → Prop} {off : Nat} {src : Str} (hc : rb.capacity = c)
    (h : off + k ≤ c) (hsrc : k ≤ src.length)
    (hQ : Q () { rb with ringbuffer := put rb.ringbuffer off (src.take k) }) :
    wp (memcpyTo off src k) Q E rb := by
  simp only [memcpyTo,wp_bind,wp_get]
  rw [if_pos (by omega),wp_set]
  exact hQ

theorem bytesToBeCopied_eq {m : Int} {a count : Nat} (hm : m = a) (ha : a < 2^31) :
    bytesToBeCopied count m = (min count a : Nat) := by
  unfold bytesToBeCopied
  rw [hm,sizeT_of_small ha]
  split
  · rw [int_of_small] <;> omega
  · rw [int_of_small] <;> omega

theorem wp_readCopy {count : Nat} {Q : Int × Str → RingBuffer → Prop} (h : rb.Holds c r n)
    (hn : 0 < n) (hQ : Q ((min count n : Nat),rb.content.take count)
      { rb with readIdx := ((r + min count n) % c : Nat) }) : wp (readCopy count) Q E rb := by
  have hcontent : rb.content.take count = window c rb.ringbuffer r (min count n) := by
    rw [h.content_eq]
    by_cases hle : count ≤ n
    · rw [window_take hle,Nat.min_eq_left hle]
    · rw [Nat.min_eq_right (by omega),List.take_of_length_le (by rw [length_window]; omega)]
  have hw := h.write_at
  have hk : bytesToBeCopied count rb.oneDirCircularDistance = (min count n : Nat) := by
    have hroom := h.room
    have hfits := h.fits
    exact bytesToBeCopied_eq h.distance (by omega)
  have hfinish : ∀ buf, buf = rb.content.take count →
      wp (do incrementRead (min count n : Nat); pure (((min count n : Nat) : Int),buf)) Q E rb := by
    intro buf hbuf
    rw [wp_bind,hbuf]
    exact wp_incrementRead h (Nat.min_le_right _ _) hQ
  have hcap := h.capacity
  have hr := h.readIdx
  have hroom := h.room
  have hin := h.inside
  have hfits := h.fits
  rw [readCopy,wp_bind,wp_get]
  simp only [hk]
  rw [wp_bind]
  generalize hkn : min count n = k at *
  have hkle : k ≤ n := hkn ▸ Nat.min_le_right _ _
  have hpre : int (rb.capacity - rb.readIdx) = ((c - r : Nat) : Int) := by
    rw [int_of_small] <;> omega
  by_cases hwrap : r + n < c
  · rw [if_pos hwrap] at hw
    have hlt : ¬ rb.writeIdx < rb.readIdx := by omega
    have hne : rb.writeIdx ≠ rb.readIdx := by omega
    rw [if_neg hlt,if_neg hne,hr]
    refine wp_memcpyFrom hcap (by omega) ?_
    exact hfinish _ (by rw [hcontent,window_eq_slice (by omega)])
  · rw [if_neg hwrap] at hw
    have hlt : rb.writeIdx < rb.readIdx := by omega
    rw [if_pos hlt,hpre]
    by_cases hcross : c - r < k
    · have hpost : int ((k : Int) - ((c - r : Nat) : Int)) = ((r + k - c : Nat) : Int) := by
        rw [int_of_small] <;> omega
      have hpos : ¬ int ((k : Int) - ((c - r : Nat) : Int)) < 0 := by omega
      rw [if_pos (by omega),if_neg hpos,hpost,hr,wp_bind]
      refine wp_memcpyFrom hcap (by omega) ?_
      rw [wp_bind]
      refine @wp_memcpyFrom rb c _ _ _ 0 hcap (by omega) ?_
      rw [wp_pure]
      exact hfinish _ (by rw [hcontent,window_wrap hin (by omega) (by omega)])
    · rw [if_neg (by omega),hr]
      refine wp_memcpyFrom hcap (by omega) ?_
      exact hfinish _ (by rw [hcontent,window_eq_slice (by omega)])

theorem wp_writeCopy {buf : Str} {Q : Int → RingBuffer → Prop} (h : rb.Holds c r n)
    (hQ : Q (min buf.length (c-1-n) : Nat) { rb with
      ringbuffer := putAround c rb.ringbuffer ((r+n) % c) (buf.take (c-1-n))
      writeIdx := ((r + n + min buf.length (c-1-n)) % c : Nat) }) : wp (writeCopy buf) Q E rb := by
  have hroom := h.room
  have hbounds : n + min buf.length (c-1-n) < c ∧ min buf.length (c-1-n) ≤ buf.length := by omega
  have htake : buf.take (c-1-n) = buf.take (min buf.length (c-1-n)) := by
    rw [List.take_eq_take_iff]
    omega
  have hw := h.write_at
  have hcap := h.capacity
  have hr := h.readIdx
  have hin := h.inside
  have hfits := h.fits
  have hmax : int (int (rb.capacity - 1) - rb.oneDirCircularDistance) = ((c-1-n : Nat) : Int) := by
    have hsub : int (rb.capacity - 1) = rb.capacity - 1 := by
      refine int_of_small ?_ ?_ <;> omega
    rw [hsub,h.distance,int_of_small] <;> omega
  have hk : bytesToBeCopied buf.length ((c-1-n : Nat) : Int) = (min buf.length (c-1-n) : Nat) :=
    bytesToBeCopied_eq rfl (by omega)
  rw [writeCopy,wp_bind,wp_get,hmax,if_neg (by omega)]
  simp only [hk]
  rw [htake] at hQ
  clear hmax hk
  generalize hkn : min buf.length (c-1-n) = k at *
  obtain ⟨hkfree,hklen⟩ := hbounds
  have hfinish : ∀ cells, cells = putAround c rb.ringbuffer ((r+n) % c) (buf.take k) →
      wp (do incrementWrite k; pure (k : Int)) Q E { rb with ringbuffer := cells } := by
    intro cells hcells
    rw [wp_bind,hcells]
    exact @wp_incrementWrite { rb with ringbuffer := _ } c r n k _ _
      ⟨hcap,hr,h.writeIdx,hroom,hin,hfits⟩ hkfree hQ
  have hlen : (buf.take k).length = k := by
    rw [List.length_take]
    omega
  by_cases hwrap : r + n < c
  · rw [if_pos hwrap] at hw
    have hmod : (r + n) % c = r + n := Nat.mod_eq_of_lt hwrap
    have hwrite : rb.writeIdx = ((r + n : Nat) : Int) := by omega
    have hpre : int (rb.capacity - rb.writeIdx) = ((c - (r+n) : Nat) : Int) := by
      rw [int_of_small] <;> omega
    rw [if_pos (by omega),hpre,if_neg (by omega),hwrite]
    by_cases hcross : c - (r+n) < k
    · have hpost : int ((k : Int) - ((c - (r+n) : Nat) : Int)) = ((k - (c - (r+n)) : Nat) : Int) := by
        rw [int_of_small] <;> omega
      rw [if_pos (by omega),hpost,if_neg (by omega),if_pos (by omega),wp_bind,Int.toNat_natCast]
      refine wp_memcpyTo hcap (by omega) (by omega) ?_
      rw [wp_bind]
      refine @wp_memcpyTo _ c _ _ _ 0 _ hcap (by omega) (by rw [List.length_drop]; omega) ?_
      refine hfinish _ ?_
      have hpre' : (buf.take k).take (c - (r+n)) = buf.take (c - (r+n)) := by
        rw [List.take_take,Nat.min_eq_left (by omega)]
      rw [putAround,hmod,hlen,if_pos hcross,hpre',List.drop_take]
    · rw [if_neg (by omega),wp_bind]
      refine wp_memcpyTo hcap (by omega) hklen ?_
      refine hfinish _ ?_
      rw [putAround,hmod,hlen,if_neg hcross]
  · rw [if_neg hwrap] at hw
    have hmod : (r + n) % c = r + n - c := by
      rw [mod_within (by omega),if_neg hwrap]
    have hwrite : rb.writeIdx = ((r + n - c : Nat) : Int) := by omega
    rw [if_neg (by omega),hwrite,wp_bind]
    refine wp_memcpyTo hcap (by omega) hklen ?_
    refine hfinish _ ?_
    rw [putAround,hmod,hlen,if_neg (by omega)]

theorem Holds.extended {bs : Str} (h : rb.Holds c r n) (hbs : n + bs.length < c) :
    { rb with
      ringbuffer := putAround c rb.ringbuffer ((r+n) % c) bs
      writeIdx := ((r + n + bs.length) % c : Nat) }.Holds c r (n + bs.length) := by
  refine ⟨h.capacity,h.readIdx,?_,hbs,h.inside,h.fits⟩
  simp only [Nat.add_assoc]

end Operations

end RingBuffer
end RootHelper
