import RootHelper.PipelinedHash

/-!
A new file of pseudorandom bytes: blocks that are encrypted one after the other, each with a key that
is taken from the buffer as it stands before it, and the threads that write the blocks and hash them.
-/

set_option autoImplicit false

namespace RootHelper
open Posix Control

def streamCiphers : List Str :=
  [text ['C','h','a','C','h','a'],text ['A','E','S','-','1','2','8','/','C','T','R'],
    text ['A','E','S','-','2','5','6','/','C','T','R'],
    text ['S','H','A','C','A','L','2','/','C','T','R']]

/-- A cipher that gives as much as it is given, from its key on. -/
structure StreamCipher where
  encrypt : Str → Str → Str
  length_encrypt : ∀ key s, (encrypt key s).length = s.length

/-- The library and the machine. -/
structure Botan where
  cipher : Str → Option StreamCipher
  sha256 : Str → Str
  length_sha256 : ∀ s, (sha256 s).length = 32
  /-- The entropy of the system. -/
  rng : Nat → Str
  length_rng : ∀ n, (rng n).length = n
  defaultBackendCipher : Str

def halfblockSize : Nat := SPMC_QUEUE_BSIZE / 2

def keySize (backendCipher : Str) : Nat :=
  if backendCipher = text ['A','E','S','-','1','2','8','/','C','T','R'] then 16 else 32

def resize (v : Str) (n : Nat) : Str := v.take n ++ List.replicate (n - v.length) 0

/-- A block with the key at the front of the buffer it was made of, and how many of the first bytes there
come from a block or from the seed. -/
structure GeneratedBlock where
  key : Str
  written : Nat
  bytes : Str

section Creation

variable (lib : Botan)

/-- The seed or the entropy, at the front of the buffer. -/
def seedBytes (seed backendCipher : Str) : Str :=
  if seed = [] then lib.rng (keySize backendCipher) else lib.sha256 seed

def usedCipher (backendCipher : Str) : Option StreamCipher :=
  lib.cipher (if backendCipher = [] then lib.defaultBackendCipher else backendCipher)

/-- A cipher that is not there leaves `output` as it is. -/
def cipher_update (enc : Option StreamCipher) (key input output : Str) : Str :=
  match enc with
  | none => output
  | some enc => enc.encrypt key input

/-- One half is encrypted over the other, and then the other way. -/
def generateBlock (backendCipher : Str) (written : Nat) (v : Str) : GeneratedBlock :=
  let enc := usedCipher lib backendCipher
  let p1 := v.take halfblockSize
  let p2 := cipher_update enc (p1.take (keySize backendCipher)) p1 (v.drop halfblockSize)
  let p1' := cipher_update enc (p2.take (keySize backendCipher)) p2 p1
  ⟨p1.take (keySize backendCipher),written,p1' ++ p2⟩

def generateBlocks (backendCipher : Str) (v : Str) (remainingToGenerate : Nat) : List GeneratedBlock :=
  if remainingToGenerate = 0 then []
  else
    let block := generateBlock lib backendCipher v.length (resize v SPMC_QUEUE_BSIZE)
    block :: generateBlocks backendCipher block.bytes (remainingToGenerate - SPMC_QUEUE_BSIZE)
termination_by remainingToGenerate
decreasing_by
  have hpos : 0 < SPMC_QUEUE_BSIZE := by decide
  omega

/-- The first block, of which a remainder is used, and the others. -/
structure Generation where
  first : GeneratedBlock
  remainder : Nat
  others : List GeneratedBlock

def Generation.blocks (g : Generation) : List GeneratedBlock := g.first :: g.others

def Generation.rootChunk (g : Generation) : Str := resize g.first.bytes g.remainder
def Generation.chunks (g : Generation) : List Str := g.others.map GeneratedBlock.bytes

def generate (size : Nat) (seed backendCipher : Str) : Generation :=
  let material := seedBytes lib seed backendCipher
  let remainder := size % SPMC_QUEUE_BSIZE
  let first := generateBlock lib backendCipher material.length (resize material SPMC_QUEUE_BSIZE)
  ⟨first,remainder,generateBlocks lib backendCipher (resize first.bytes remainder) (size - remainder)⟩

def hexDigit (n : Nat) : Byte := UInt8.ofNat (if n < 10 then 48 + n else 55 + n)
def hex_encode (s : Str) : Str := s.flatMap fun b => [hexDigit (b.toNat / 16),hexDigit (b.toNat % 16)]

structure Created where
  ret : Int
  output_hash : Str
  file : Str
  deriving DecidableEq, Repr

open SpmcQueue in
/-- What there is after these steps of the threads, once they are joined. With an algorithm the first
consumer hashes; the last one writes. -/
def producer_createAndHash (h : HashFunctions) (opened : Bool) (algo : Option Byte) (output_hash : Str)
    (size : Nat) (seed backendCipher : Str) (schedule : List SpmcThread) : Option Created :=
  if ¬ opened then some ⟨-1,output_hash,[]⟩
  else
    let g := generate lib size seed backendCipher
    let totalThreads := if algo.isSome then 2 else 1
    let q := schedule.foldl step (start totalThreads g.rootChunk g.chunks)
    if q.fault = false ∧ q.producer.place = .finished ∧ ∀ c ∈ q.consumers, c.place = .returned then
      match q.consumers.head?,q.consumers.getLast? with
      | some consumer,some consumerW =>
        some ⟨0,algo.elim [] fun algo => hex_encode (h.digest (hashLabel algo) consumer.processed.flatten),
          consumerW.processed.flatten⟩
      | _,_ => none
    else none

/-- The first block has this key and each other one what the complete block before it begins with, and no
byte of a key is a zero that was left by a resize. -/
def Chained (keySize : Nat) : Str → List GeneratedBlock → Prop
  | _, [] => True
  | key, block :: blocks => block.key = key ∧ keySize ≤ block.written ∧
      Chained keySize (block.bytes.take keySize) blocks

/-- The blocks form one chain from the seed on. Every run of the threads that comes to its end has written
`size` bytes, and without an algorithm each run in which both go on does so. -/
structure MakesChain (h : HashFunctions) (size : Nat) (seed backendCipher : Str) : Prop where
  chain : Chained (keySize backendCipher)
    ((seedBytes lib seed backendCipher).take (keySize backendCipher))
    (generate lib size seed backendCipher).blocks
  exact : ∀ algo output_hash schedule created, producer_createAndHash lib h true algo output_hash size
    seed backendCipher schedule = some created → created.file.length = size
  ends : ∀ act, Fair act → ∃ n, ∀ m, n ≤ m → (producer_createAndHash lib h true none [] size seed
    backendCipher ((List.range m).map act)).isSome

variable {lib : Botan} {backendCipher : Str}

theorem length_resize (v : Str) (n : Nat) : (resize v n).length = n := by
  rw [resize,List.length_append,List.length_take,List.length_replicate]
  omega

theorem take_resize {v : Str} {k n : Nat} (hk : k ≤ v.length) (hn : k ≤ n) :
    (resize v n).take k = v.take k := by
  rw [resize,List.take_append_of_le_length (by rw [List.length_take]; omega),List.take_take,
    Nat.min_eq_left hn]

theorem resize_short {v : Str} {n : Nat} (hn : n ≤ v.length) : resize v n = v.take n := by
  rw [resize,Nat.sub_eq_zero_of_le hn,List.replicate_zero,List.append_nil]

theorem keySize_cases (backendCipher : Str) :
    keySize backendCipher = 16 ∨ keySize backendCipher = 32 := by
  unfold keySize
  split
  · exact .inl rfl
  · exact .inr rfl

theorem length_seedBytes (lib : Botan) (seed backendCipher : Str) :
    keySize backendCipher ≤ (seedBytes lib seed backendCipher).length := by
  unfold seedBytes
  split
  · rw [lib.length_rng]
  · rw [lib.length_sha256]
    have := keySize_cases backendCipher
    omega

theorem length_cipher_update {enc : Option StreamCipher} {key input output : Str}
    (hlength : input.length = output.length) :
    (cipher_update enc key input output).length = output.length := by
  cases enc with
  | none => rfl
  | some enc => exact (enc.length_encrypt key input).trans hlength

theorem length_generateBlock {written : Nat} {v : Str} (hv : v.length = SPMC_QUEUE_BSIZE) :
    (generateBlock lib backendCipher written v).bytes.length = SPMC_QUEUE_BSIZE := by
  have hhalf : SPMC_QUEUE_BSIZE = halfblockSize + halfblockSize := by decide
  have hp1 : (v.take halfblockSize).length = halfblockSize := by
    rw [List.length_take]
    omega
  have hp2 : (v.drop halfblockSize).length = halfblockSize := by
    rw [List.length_drop]
    omega
  have hnew : ∀ key, (cipher_update (usedCipher lib backendCipher) key (v.take halfblockSize)
      (v.drop halfblockSize)).length = halfblockSize := fun key =>
    (length_cipher_update (hp1.trans hp2.symm)).trans hp2
  rw [generateBlock,List.length_append,hnew,length_cipher_update ((hnew _).trans hp1.symm),hp1,hhalf]

theorem key_generateBlock {written : Nat} {v : Str} :
    (generateBlock lib backendCipher written v).key = v.take (keySize backendCipher) := by
  have hhalf : halfblockSize = 16000000 := by decide
  have hkey := keySize_cases backendCipher
  change (v.take halfblockSize).take (keySize backendCipher) = _
  rw [List.take_take,Nat.min_eq_left (by omega)]

theorem written_generateBlock {written : Nat} {v : Str} :
    (generateBlock lib backendCipher written v).written = written := rfl

theorem chained_cons {keySize : Nat} {key : Str} {block : GeneratedBlock} {blocks : List GeneratedBlock} :
    Chained keySize key (block :: blocks) ↔ block.key = key ∧ keySize ≤ block.written ∧
      Chained keySize (block.bytes.take keySize) blocks := Iff.rfl

theorem generateBlocks_chained {v last : Str} {remaining : Nat} (hkey : keySize backendCipher ≤ v.length)
    (hv : v.length ≤ SPMC_QUEUE_BSIZE) (hlast : v = last.take v.length) :
    Chained (keySize backendCipher) (last.take (keySize backendCipher))
      (generateBlocks lib backendCipher v remaining) := by
  fun_induction generateBlocks lib backendCipher v remaining generalizing last with
  | case1 => trivial
  | case2 v remaining hmore block =>
    rename_i ih
    have hlength : block.bytes.length = SPMC_QUEUE_BSIZE := length_generateBlock (length_resize _ _)
    refine chained_cons.mpr ⟨?_,hkey,ih (by omega) (by omega) List.take_length.symm⟩
    rw [key_generateBlock,take_resize hkey (by omega),hlast,List.take_take,Nat.min_eq_left hkey]

theorem length_generateBlocks {v : Str} {remaining : Nat} (hdvd : SPMC_QUEUE_BSIZE ∣ remaining) :
    ((generateBlocks lib backendCipher v remaining).map GeneratedBlock.bytes).flatten.length =
      remaining := by
  fun_induction generateBlocks lib backendCipher v remaining with
  | case1 => rfl
  | case2 v remaining hmore block ih =>
    have hle := Nat.le_of_dvd (by omega) hdvd
    have hlength : block.bytes.length = SPMC_QUEUE_BSIZE := length_generateBlock (length_resize _ _)
    rw [List.map_cons,List.flatten_cons,List.length_append,ih (Nat.dvd_sub hdvd (dvd_refl _)),hlength]
    omega

theorem generateBlocks_broken {v key : Str} {remaining : Nat} (hmore : remaining ≠ 0)
    (hshort : v.length < keySize backendCipher) :
    ¬ Chained (keySize backendCipher) key (generateBlocks lib backendCipher v remaining) := by
  rw [generateBlocks,if_neg hmore]
  intro hchain
  have hwritten := (chained_cons.mp hchain).2.1
  rw [written_generateBlock] at hwritten
  omega

theorem chained_generate (size : Nat) (seed : Str) : Chained (keySize backendCipher)
    ((seedBytes lib seed backendCipher).take (keySize backendCipher))
      (generate lib size seed backendCipher).blocks ↔
    size < SPMC_QUEUE_BSIZE ∨ keySize backendCipher ≤ size % SPMC_QUEUE_BSIZE := by
  have hmaterial := length_seedBytes lib seed backendCipher
  have hkey := keySize_cases backendCipher
  have hblock : SPMC_QUEUE_BSIZE = 32000000 := rfl
  have hlength := @length_generateBlock lib backendCipher (seedBytes lib seed backendCipher).length _
    (length_resize (seedBytes lib seed backendCipher) SPMC_QUEUE_BSIZE)
  rw [Generation.blocks,chained_cons]
  simp only [generate]
  rw [key_generateBlock,written_generateBlock,take_resize hmaterial (by omega)]
  simp only [hmaterial,true_and]
  by_cases hsmall : size < SPMC_QUEUE_BSIZE
  · rw [Nat.mod_eq_of_lt hsmall,Nat.sub_self,generateBlocks,if_pos rfl]
    exact iff_of_true trivial (.inl hsmall)
  have hless := Nat.mod_lt size (by decide : 0 < SPMC_QUEUE_BSIZE)
  have hmore : size - size % SPMC_QUEUE_BSIZE ≠ 0 := by omega
  have hremainder := length_resize (generateBlock lib backendCipher (seedBytes lib seed backendCipher).length
    (resize (seedBytes lib seed backendCipher) SPMC_QUEUE_BSIZE)).bytes (size % SPMC_QUEUE_BSIZE)
  have hle := hless.le
  by_cases hlong : keySize backendCipher ≤ size % SPMC_QUEUE_BSIZE
  · refine iff_of_true (generateBlocks_chained (by rw [hremainder]; exact hlong)
      (by rw [hremainder]; exact hle) ?_) (.inr hlong)
    rw [hremainder]
    exact resize_short (by rw [hlength]; exact hle)
  · refine iff_of_false (generateBlocks_broken hmore ?_) (not_or.mpr ⟨hsmall,hlong⟩)
    rw [hremainder]
    exact Nat.lt_of_not_le hlong

theorem length_generate (size : Nat) (seed : Str) :
    ((generate lib size seed backendCipher).rootChunk ::
      (generate lib size seed backendCipher).chunks).flatten.length = size := by
  have hle := Nat.mod_le size SPMC_QUEUE_BSIZE
  rw [List.flatten_cons,List.length_append,Generation.rootChunk,length_resize,Generation.chunks]
  simp only [generate]
  rw [length_generateBlocks (Nat.dvd_sub_mod size)]
  omega

theorem created_exact {h : HashFunctions} {algo : Option Byte} {output_hash seed : Str} {size : Nat}
    {schedule : List SpmcThread} {created : Created} (hcreated : producer_createAndHash lib h true algo
      output_hash size seed backendCipher schedule = some created) : created.file.length = size := by
  obtain ⟨totalThreads,htotal,hpos,hfits⟩ : ∃ totalThreads, (if algo.isSome then 2 else 1) = totalThreads ∧
      0 < totalThreads ∧ totalThreads < 256 := ⟨_,rfl,by split <;> decide⟩
  unfold producer_createAndHash at hcreated
  simp only [htotal,not_true_eq_false,if_false] at hcreated
  split at hcreated
  · rename_i hend
    split at hcreated
    · rename_i consumer consumerW _ hlast
      obtain rfl := Option.some.inj hcreated
      have hsound := SpmcQueue.sound_of_returned hpos hfits (anyRun_foldl _ schedule) hend.1 hend.2.2
      have hmem := List.mem_of_getLast? hlast
      change consumerW.processed.flatten.length = size
      rw [hsound.whole consumerW hmem (hend.2.2 consumerW hmem)]
      exact length_generate size seed
    · cases hcreated
  · cases hcreated

theorem created_ends {h : HashFunctions} {seed : Str} {size : Nat} {act : Nat → SpmcThread}
    (hfair : Fair act) : ∃ n, ∀ m, n ≤ m → (producer_createAndHash lib h true none [] size seed
      backendCipher ((List.range m).map act)).isSome := by
  obtain ⟨n,hends⟩ := exists_joined (generate lib size seed backendCipher).rootChunk
    (generate lib size seed backendCipher).chunks hfair
  refine ⟨n,fun m hm => ?_⟩
  have hcomplete := hends m hm
  obtain ⟨c,hc⟩ := (SpmcQueue.inv_of_single (anyRun_foldl (.start 1
    (generate lib size seed backendCipher).rootChunk (generate lib size seed backendCipher).chunks)
    ((List.range m).map act))).1.exists_consumer
  unfold producer_createAndHash
  simp only [Option.isSome_none,Bool.false_eq_true,if_false,not_true_eq_false]
  rw [if_pos ⟨hcomplete.safe,hcomplete.finished,hcomplete.returned⟩]
  split
  · rfl
  · rename_i hnone
    have hne := List.ne_nil_of_mem hc
    exact absurd (List.getLast?_eq_some_getLast hne) (hnone _ _ (List.head?_eq_some_head hne))

/-- Every size below that of a block and every size with a remainder that is as long as a key makes a
chain, and no other one. -/
theorem key_chain_iff (h : HashFunctions) (size : Nat) (seed : Str) :
    MakesChain lib h size seed backendCipher ↔
      size < SPMC_QUEUE_BSIZE ∨ keySize backendCipher ≤ size % SPMC_QUEUE_BSIZE := by
  rw [← @chained_generate lib backendCipher size seed]
  refine ⟨fun hchain => hchain.chain,fun hchain => ⟨hchain,?_,?_⟩⟩
  · intro algo output_hash schedule created hcreated
    exact created_exact hcreated
  · intro act hfair
    exact created_ends hfair

theorem generate_multiple {size : Nat} (hmultiple : size % SPMC_QUEUE_BSIZE = 0) (seed seed' : Str) :
    (generate lib size seed backendCipher).rootChunk = (generate lib size seed' backendCipher).rootChunk ∧
      (generate lib size seed backendCipher).chunks = (generate lib size seed' backendCipher).chunks := by
  have hnone : ∀ v, resize v 0 = [] := fun v => List.eq_nil_of_length_eq_zero (length_resize v 0)
  simp only [Generation.rootChunk,Generation.chunks,generate,hmultiple,hnone,and_self]

/-- One that stands for the library: each byte is changed by the first one of the key. -/
def firstByteBotan : Botan where
  cipher name := if name ∈ streamCiphers then
    some ⟨fun key s => s.map fun b => b ^^^ key.headD 0,fun _ _ => List.length_map _⟩ else none
  sha256 s := resize s 32
  length_sha256 s := length_resize s 32
  rng n := List.replicate n 7
  length_rng _ := List.length_replicate
  defaultBackendCipher := streamCiphers.headD []

/-- One block exactly: the seeds "a" and "b" give the same file. -/
theorem seed_lost : ¬ MakesChain firstByteBotan crcHashes 32000000 [97] [] ∧
    (generate firstByteBotan 32000000 [97] []).chunks = (generate firstByteBotan 32000000 [98] []).chunks :=
  ⟨fun hchain => absurd ((chained_generate 32000000 [97]).mp hchain.chain) (by decide),
    (generate_multiple (by decide) [97] [98]).2⟩

end Creation

end RootHelper
