import RootHelper.Control.Interleaving
import RootHelper.RingBuffer

/-!
The ring buffer without a mutex: one thread reads, one writes, any may close it. Each use of an
index is an atomic access of its own, and so is each byte that is copied; between two of them the
other threads go on.
-/

set_option autoImplicit false

namespace RootHelper
open Posix Control

/-- What the threads share. -/
structure LockfreeRing where
  closed : Bool
  ringbuffer : Nat → Byte
  readIdx : Int
  writeIdx : Int

/-- An `exit` with its status, or a copy that leaves the buffer. -/
inductive LockfreeFault where
  | exit (status : Int)
  | outOfBounds
  deriving DecidableEq, Repr

inductive LockfreeOp where
  | loadClosed
  | storeClosed
  | loadRead
  | loadWrite
  | storeRead (v : Int)
  | storeWrite (v : Int)
  | loadCell (i : Int)
  | storeCell (i : Int) (b : Byte)
  | stop (fault : LockfreeFault)
  deriving DecidableEq, Repr

namespace LockfreeOp

abbrev Answer : LockfreeOp → Type
  | loadClosed => Bool
  | loadRead | loadWrite => Int
  | loadCell _ => Byte
  | stop _ => Empty
  | _ => Unit

def perform (capacity : Int) :
    (o : LockfreeOp) → LockfreeRing → Except LockfreeFault (o.Answer × LockfreeRing)
  | loadClosed, rb => .ok (rb.closed,rb)
  | storeClosed, rb => .ok ((),{ rb with closed := true })
  | loadRead, rb => .ok (rb.readIdx,rb)
  | loadWrite, rb => .ok (rb.writeIdx,rb)
  | storeRead v, rb => .ok ((),{ rb with readIdx := v })
  | storeWrite v, rb => .ok ((),{ rb with writeIdx := v })
  | loadCell i, rb =>
    if 0 ≤ i ∧ i < capacity then .ok (rb.ringbuffer i.toNat,rb) else .error .outOfBounds
  | storeCell i b, rb =>
    if 0 ≤ i ∧ i < capacity then .ok ((),{ rb with ringbuffer := Circular.put rb.ringbuffer i.toNat [b] })
    else .error .outOfBounds
  | stop fault, _ => .error fault

end LockfreeOp

abbrev LockfreeM := Thread LockfreeOp LockfreeOp.Answer

namespace LockfreeRing

/-- What the memory holds at first is not known. -/
def new (ringbuffer : Nat → Byte) : LockfreeRing := ⟨false,ringbuffer,0,0⟩

def loadClosed : LockfreeM Bool := Thread.ask LockfreeOp.loadClosed
def storeClosed : LockfreeM Unit := Thread.ask LockfreeOp.storeClosed
def loadRead : LockfreeM Int := Thread.ask LockfreeOp.loadRead
def loadWrite : LockfreeM Int := Thread.ask LockfreeOp.loadWrite
def storeRead (v : Int) : LockfreeM Unit := Thread.ask (LockfreeOp.storeRead v)
def storeWrite (v : Int) : LockfreeM Unit := Thread.ask (LockfreeOp.storeWrite v)
def loadCell (i : Int) : LockfreeM Byte := Thread.ask (LockfreeOp.loadCell i)
def storeCell (i : Int) (b : Byte) : LockfreeM Unit := Thread.ask (LockfreeOp.storeCell i b)
def stop {α : Type} (fault : LockfreeFault) : LockfreeM α := .access (.stop fault) Empty.elim
def exit {α : Type} (status : Int) : LockfreeM α := stop (.exit status)

def loadCells (off : Int) : Nat → LockfreeM Str
  | 0 => pure []
  | n+1 => do
    let b ← loadCell off
    let buf ← loadCells (off+1) n
    pure (b :: buf)

def storeCells (off : Int) : Str → LockfreeM Unit
  | [] => pure ()
  | b :: src => do
    storeCell off b
    storeCells (off+1) src

/-- `n` bytes out of the buffer. -/
def memcpyFrom (off n : Int) : LockfreeM Str :=
  if n < 0 then stop .outOfBounds else loadCells off n.toNat

/-- The first `n` bytes of `src` into the buffer. -/
def memcpyTo (off : Int) (src : Str) (n : Int) : LockfreeM Unit :=
  if n < 0 ∨ src.length < n then stop .outOfBounds else storeCells off (src.take n.toNat)

def close : LockfreeM Unit := do
  let closed ← loadClosed
  if closed then pure () else storeClosed

def isEmpty : LockfreeM Bool := do
  let readIdx ← loadRead
  let writeIdx ← loadWrite
  pure (readIdx = writeIdx)

section Calls

variable (capacity : Int)

def oneDirCircularDistance : LockfreeM Int := do
  let writeIdx ← loadWrite
  let readIdx ← loadRead
  pure ((int (int (writeIdx - readIdx) + capacity)).tmod capacity)

def incrementRead (offset : Int) : LockfreeM Unit := do
  let distance ← oneDirCircularDistance capacity
  if distance < offset then exit 7256
  else do
    let readIdx ← loadRead
    storeRead ((int (int (readIdx + offset) + capacity)).tmod capacity)

def incrementWrite (offset : Int) : LockfreeM Unit := do
  let distance ← oneDirCircularDistance capacity
  if int (int (capacity - distance) - 1) < offset then exit 7257
  else do
    let writeIdx ← loadWrite
    storeWrite ((int (int (writeIdx + offset) + capacity)).tmod capacity)

/-- One check of the loop in which `read` waits: whether there is something to read, or that there
will not be; nothing while it goes on waiting. -/
def readPoll : LockfreeM (Option Bool) := do
  let empty ← isEmpty
  if empty then do
    let closed ← loadClosed
    pure (if closed then some false else none)
  else pure (some true)

/-- The copies of `read`; each branch takes the indices anew. -/
def readBytes (bytesToBeCopied : Int) : LockfreeM Str := do
  let writeIdx ← loadWrite
  let readIdx ← loadRead
  if writeIdx < readIdx then do
    let readIdx ← loadRead
    let preBoundaryBytes := int (capacity - readIdx)
    if preBoundaryBytes < bytesToBeCopied then do
      let postBoundaryBytes := int (bytesToBeCopied - preBoundaryBytes)
      if postBoundaryBytes < 0 then exit 4693
      else do
        let readIdx ← loadRead
        let a ← memcpyFrom readIdx preBoundaryBytes
        let b ← memcpyFrom 0 postBoundaryBytes
        pure (a ++ b)
    else do
      let readIdx ← loadRead
      memcpyFrom readIdx bytesToBeCopied
  else do
    let writeIdx ← loadWrite
    let readIdx ← loadRead
    if writeIdx = readIdx then exit (-1)
    else do
      let readIdx ← loadRead
      memcpyFrom readIdx bytesToBeCopied

def readCopy (count : Nat) : LockfreeM (Int × Str) := do
  let maxReadable ← oneDirCircularDistance capacity
  let bytesToBeCopied := RingBuffer.bytesToBeCopied count maxReadable
  let buf ← readBytes capacity bytesToBeCopied
  incrementRead capacity bytesToBeCopied
  pure (bytesToBeCopied,buf)

/-- `closed && isEmpty()` -/
def closedAndEmpty : LockfreeM Bool := do
  let closed ← loadClosed
  if closed then isEmpty else pure false

def read (count : Nat) : LockfreeM (Int × Str) := do
  let more ← Thread.again readPoll .back
  if more then do
    let done ← closedAndEmpty
    if done then pure (0,[]) else readCopy capacity count
  else pure (0,[])

/-- One check of the loop in which `write` waits. -/
def writePoll : LockfreeM (Option Unit) := do
  let distance ← oneDirCircularDistance capacity
  pure (if distance = int (capacity - 1) then none else some ())

/-- The copies of `write`. -/
def writeBytes (buf : Str) (bytesToBeCopied : Int) : LockfreeM Unit := do
  let readIdx ← loadRead
  let writeIdx ← loadWrite
  if readIdx ≤ writeIdx then do
    let writeIdx ← loadWrite
    let preBoundaryBytes := int (capacity - writeIdx)
    if preBoundaryBytes < 0 then exit 4792
    else if preBoundaryBytes < bytesToBeCopied then do
      let postBoundaryBytes := int (bytesToBeCopied - preBoundaryBytes)
      if postBoundaryBytes < 0 then exit 4793
      else do
        let writeIdx ← loadWrite
        memcpyTo writeIdx buf preBoundaryBytes
        if 0 < postBoundaryBytes then
          memcpyTo 0 (buf.drop preBoundaryBytes.toNat) postBoundaryBytes
        else pure ()
    else do
      let writeIdx ← loadWrite
      memcpyTo writeIdx buf bytesToBeCopied
  else do
    let writeIdx ← loadWrite
    memcpyTo writeIdx buf bytesToBeCopied

def writeCopy (buf : Str) : LockfreeM Int := do
  let distance ← oneDirCircularDistance capacity
  let maxWritable := int (int (capacity - 1) - distance)
  if maxWritable < 0 then exit 3571
  else do
    let bytesToBeCopied := RingBuffer.bytesToBeCopied buf.length maxWritable
    writeBytes capacity buf bytesToBeCopied
    incrementWrite capacity bytesToBeCopied
    pure bytesToBeCopied

def write (buf : Str) : LockfreeM Int := do
  let closed ← loadClosed
  if closed then pure (-1)
  else do
    Thread.again (writePoll capacity) .back
    let closed ← loadClosed
    if closed then pure (-1) else writeCopy capacity buf

end Calls

end LockfreeRing

end RootHelper
