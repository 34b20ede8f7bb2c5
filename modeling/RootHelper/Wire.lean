import Mathlib.Algebra.Ring.Int.Defs
import Mathlib.Algebra.Ring.Nat
import RootHelper.Control.Programs
import RootHelper.Posix.Paths

/-!
The client connection and the wrappers every handler reads and writes it through. What is written
is kept message by message; `Chunk.encode` gives the bytes (the helper sends integers in the byte
order of its machine, little endian).
-/

set_option autoImplicit false

namespace RootHelper
open Posix Control

/-- How a thread stops before its end: by `threadExit`, by going wrong, or never: `diverged` is
where a loop is given up after as many turns as there can be. -/
inductive Stop where
  | threadExit
  | crash
  | diverged
  deriving DecidableEq, Repr

inductive Chunk where
  | u8 (n : Byte)
  | u16 (n : Nat)
  | u32 (n : Nat)
  | u64 (n : Nat)
  | bytes (s : Str)
  deriving DecidableEq, Repr

def littleEndian : Nat → Nat → Str
  | 0, _ => []
  | width+1, n => UInt8.ofNat (n % 256) :: littleEndian width (n / 256)

def fromLittleEndian : Str → Nat
  | [] => 0
  | b :: s => b.toNat + 256*fromLittleEndian s

@[simp] theorem length_littleEndian (width n : Nat) : (littleEndian width n).length = width := by
  induction width generalizing n with
  | zero => rfl
  | succ width ih => simp [littleEndian,ih]

theorem fromLittleEndian_littleEndian (width n : Nat) :
    fromLittleEndian (littleEndian width n) = n % 256^width := by
  induction width generalizing n with
  | zero => simp [littleEndian,fromLittleEndian,Nat.mod_one]
  | succ width ih =>
    have hbyte : (UInt8.ofNat (n % 256)).toNat = n % 256 := by simp
    rw [littleEndian,fromLittleEndian,ih,hbyte,Nat.pow_succ,Nat.mul_comm (256^width) 256,
      Nat.mod_mul]

theorem littleEndian_fromLittleEndian (s : Str) : littleEndian s.length (fromLittleEndian s) = s := by
  induction s with
  | nil => rfl
  | cons b s ih =>
    have hb := b.toNat_lt
    have hbyte : (b.toNat + 256*fromLittleEndian s) % 256 = b.toNat := by omega
    have hrest : (b.toNat + 256*fromLittleEndian s) / 256 = fromLittleEndian s := by omega
    rw [List.length_cons,fromLittleEndian,littleEndian,hbyte,hrest,ih,UInt8.ofNat_toNat]

def Chunk.encode : Chunk → Str
  | u8 n => [n]
  | u16 n => littleEndian 2 n
  | u32 n => littleEndian 4 n
  | u64 n => littleEndian 8 n
  | bytes s => s

/-- `inp` is what the peer still sends before it ends; `room` counts the writes that still
succeed, when there is an end to them. -/
structure Conn where
  inp : Str
  out : List Chunk
  room : Option Nat
  closed : Bool
  deriving DecidableEq, Repr

def Conn.bytes (k : Conn) : Str := k.out.flatMap Chunk.encode

abbrev ConnM := EStateM Stop Conn

def RESPONSE_OK : Byte := 0x00
def RESPONSE_ERROR : Byte := 0xFF
def RESPONSE_REDIRECT : Byte := 0x11

def maxuint : Nat := 2^64-1
def maxuint_2 : Nat := 2^64-2

def COPY_CHUNK_SIZE : Nat := 33554432

/-- 1 MiB, for upload and download. -/
def REMOTE_IO_CHUNK_SIZE : Nat := 1048576

def chunks (chunkSize size : Nat) : List Nat :=
  List.replicate (size / chunkSize) chunkSize ++
    if size % chunkSize = 0 then [] else [size % chunkSize]

def close : ConnM Unit := modify fun k => { k with closed := true }

/-- `readAll` takes what there is; short of `count` bytes the descriptor is closed. -/
def readAllOrExit (count : Nat) : ConnM Str := do
  let k ← get
  if count = 0 then pure []
  else if k.closed ∨ k.inp.length < count then do
    set { k with inp := [], closed := true }
    throw .threadExit
  else do
    set { k with inp := k.inp.drop count }
    pure (k.inp.take count)

/-- One `read` of one byte, whose result the caller may ignore. -/
def readByte : ConnM (Option Byte) := do
  let k ← get
  match k.closed, k.inp with
  | false, b :: rest => do
    set { k with inp := rest }
    pure (some b)
  | _, _ => pure none

def writeAllOrExit (c : Chunk) : ConnM Unit := do
  let k ← get
  if c.encode = [] then pure ()
  else if k.closed ∨ k.room = some 0 then do
    set { k with closed := true }
    throw .threadExit
  else set { k with out := k.out ++ [c], room := k.room.map (· - 1) }

def readU8 : ConnM Byte := do
  let s ← readAllOrExit 1
  pure (s.headD 0)

def readU16 : ConnM Nat := fromLittleEndian <$> readAllOrExit 2
def readU64 : ConnM Nat := fromLittleEndian <$> readAllOrExit 8

def readStringWithLen : ConnM Str := do
  let len ← readU16
  if len = 0 then pure [] else readAllOrExit len

/-- The length is cut to sixteen bits, and as many bytes are sent. -/
def writeStringWithLen (s : Str) : ConnM Unit := do
  let len := s.length % 65536
  writeAllOrExit (.u16 len)
  writeAllOrExit (.bytes (s.take len))

def readPairOfStringsWithPairOfLens : ConnM (Str × Str) := do
  let len₀ ← readU16
  let len₁ ← readU16
  if len₀ = 0 then pure ([],[])
  else do
    let s ← readAllOrExit len₀
    let t ← readAllOrExit len₁
    pure (s,t)

def sendBaseResponse (ret : Int) (errno : Nat) : ConnM Unit :=
  if ret = 0 then writeAllOrExit (.u8 RESPONSE_OK)
  else do
    writeAllOrExit (.u8 RESPONSE_ERROR)
    writeAllOrExit (.u32 errno)

/-- Writing: nothing is read, what was sent before stays in front, and closed is closed. -/
def Told (k k' : Conn) : Prop :=
  k'.inp = k.inp ∧ k.out <+: k'.out ∧ (k.closed → k'.closed)

instance : Std.Refl Told := ⟨fun _ => ⟨rfl,List.prefix_rfl,id⟩⟩

instance : IsTrans Conn Told :=
  ⟨fun _ _ _ h h' => ⟨h'.1.trans h.1,h.2.1.trans h'.2.1,h'.2.2 ∘ h.2.2⟩⟩

section Writing

variable {k : Conn} {Q : Unit → Conn → Prop} {E : Stop → Conn → Prop}

/-- A write that goes through does not close the descriptor; one that fails stops the thread. -/
theorem wp_writeAllOrExit {c : Chunk}
    (hQ : ∀ k', Told k k' → k'.closed = k.closed → Q () k')
    (hE : ∀ k', Told k k' → E .threadExit k') : wp (writeAllOrExit c) Q E k := by
  simp only [writeAllOrExit,wp_bind,wp_get,wp_ite,wp_pure,wp_set,wp_throw]
  refine ⟨fun _ => hQ k (refl_of Told k) rfl,fun _ => ⟨fun _ => ?_,fun _ => ?_⟩⟩
  · exact hE _ ⟨rfl,List.prefix_rfl,fun _ => rfl⟩
  · exact hQ _ ⟨rfl,List.prefix_append _ _,id⟩ rfl

theorem wp_writeStringWithLen {s : Str}
    (hQ : ∀ k', Told k k' → k'.closed = k.closed → Q () k')
    (hE : ∀ k', Told k k' → E .threadExit k') : wp (writeStringWithLen s) Q E k := by
  simp only [writeStringWithLen,wp_bind]
  refine wp_writeAllOrExit (fun k₁ h₁ hc₁ => ?_) hE
  refine wp_writeAllOrExit (fun k₂ h₂ hc₂ => ?_) fun k₂ h₂ => hE k₂ (trans_of Told h₁ h₂)
  exact hQ k₂ (trans_of Told h₁ h₂) (hc₂.trans hc₁)

end Writing

/-- `n` more messages can be written. -/
def Conn.takes (k : Conn) (n : Nat) : Prop := k.closed = false ∧ ∀ r, k.room = some r → n ≤ r

def Conn.sent (k : Conn) (cs : List Chunk) : Conn :=
  { k with out := k.out ++ cs, room := k.room.map (· - cs.length) }

@[simp] theorem Conn.sent_nil (k : Conn) : k.sent [] = k := by
  cases k with
  | mk inp out room closed => cases room <;> simp [Conn.sent]

theorem Conn.sent_sent (k : Conn) (cs ds : List Chunk) : (k.sent cs).sent ds = k.sent (cs ++ ds) := by
  cases k with
  | mk inp out room closed => cases room <;> simp [Conn.sent,Nat.sub_sub]

theorem Conn.takes_sent {k : Conn} {cs : List Chunk} {n : Nat} (h : k.takes cs.length) :
    (k.sent cs).takes n ↔ k.takes (cs.length + n) := by
  unfold Conn.takes Conn.sent at *
  cases hr : k.room with
  | none => simp
  | some r =>
    have hle := h.2 r hr
    simp only [Option.map_some,Option.some.injEq,forall_eq']
    refine ⟨fun h' => ⟨h'.1,by omega⟩,fun h' => ⟨h'.1,by omega⟩⟩

theorem wp_writeAllOrExit_iff {c : Chunk} (hc : c.encode ≠ []) {k : Conn}
    {Q : Unit → Conn → Prop} {E : Stop → Conn → Prop} :
    wp (writeAllOrExit c) Q E k ↔ (k.takes 1 → Q () (k.sent [c])) ∧
      (¬ k.takes 1 → E .threadExit { k with closed := true }) := by
  have htakes : k.takes 1 ↔ ¬ (k.closed ∨ k.room = some 0) := by
    unfold Conn.takes
    cases hr : k.room with
    | none => simp
    | some r =>
      simp only [Option.some.injEq,forall_eq',not_or,Bool.not_eq_true]
      refine and_congr_right fun _ => ?_
      omega
  simp only [writeAllOrExit,wp_bind,wp_get,if_neg hc,wp_ite,wp_set,wp_throw,htakes,not_not]
  exact and_comm

/-- Whether the next read of a byte has one. -/
def Conn.hears (k : Conn) : Bool := !k.closed && !k.inp.isEmpty

/-- A string with its length before it. -/
def nextString (s : Str) : Option Str :=
  if s.length < 2 then none
  else if fromLittleEndian (s.take 2) = 0 then some []
  else if (s.drop 2).length < fromLittleEndian (s.take 2) then none
  else some ((s.drop 2).take (fromLittleEndian (s.take 2)))

theorem wp_readByte {k : Conn} {Q : Option Byte → Conn → Prop} {E : Stop → Conn → Prop} :
    wp readByte Q E k ↔
      if k.hears then Q k.inp.head? { k with inp := k.inp.tail } else Q none k := by
  simp only [readByte,wp_bind,wp_get]
  by_cases hc : k.closed
  · simp [Conn.hears,hc]
  · cases hi : k.inp with
    | nil => simp [Conn.hears,hi,hc]
    | cons b rest => simp [Conn.hears,hi,hc]

theorem nextString_length {s t : Str} (h : nextString s = some t) :
    2 ≤ s.length ∧ t.length = fromLittleEndian (s.take 2) := by
  unfold nextString at h
  split_ifs at h with h2 h0 hl
  · rw [← Option.some.inj h,h0]
    exact ⟨by omega,rfl⟩
  · rw [← Option.some.inj h]
    simp only [List.length_take,List.length_drop] at hl ⊢
    omega

/-- A descriptor on which a read came up short is closed, and its thread at an end. -/
theorem wp_readStringWithLen {k : Conn} {Q : Str → Conn → Prop} {E : Stop → Conn → Prop}
    (hQ : ∀ s, k.closed = false → nextString k.inp = some s →
      Q s { k with inp := k.inp.drop (2 + s.length) })
    (hE : ∀ k', (k.closed = true ∨ nextString k.inp = none) → E .threadExit k') :
    wp readStringWithLen Q E k := by
  simp only [readStringWithLen,readU16,readAllOrExit,wp_bind,wp_map,wp_get,wp_ite,wp_pure,wp_set,
    wp_throw]
  refine ⟨fun h => by simp at h,fun _ => ⟨fun h => hE _ ?_,fun h => ?_⟩⟩
  · rcases h with h | h
    · exact .inl h
    · exact .inr (by simp [nextString,h])
  · simp only [not_or,not_lt,Bool.not_eq_true] at h
    obtain ⟨hc,hl⟩ := h
    have hl' : ¬ k.inp.length < 2 := by omega
    refine ⟨fun h0 => hQ _ hc (by simp [nextString,hl',h0]),fun h0 => ⟨?_,fun _ => ⟨?_,?_⟩⟩⟩
    · exact fun h => absurd h h0
    · intro h
      refine hE _ (.inr ?_)
      rcases h with h | h
      · simp [hc] at h
      · simp only [nextString,if_neg hl',if_neg h0,if_pos h]
    · intro h
      simp only [not_or] at h
      have hnext : nextString k.inp =
          some ((k.inp.drop 2).take (fromLittleEndian (k.inp.take 2))) := by
        simp only [nextString,if_neg hl',if_neg h0,if_neg h.2]
      have hQ' := hQ _ hc hnext
      rwa [(nextString_length hnext).2,← List.drop_drop] at hQ'

end RootHelper
