import RootHelper.FolderStats

/-!
Hashing a file or the tree of a directory. The hash functions themselves are a parameter: each gives
a digest of its length for the stream of bytes it has been fed.
-/

set_option autoImplicit false

namespace RootHelper
open Posix

def rh_hashLabels : List Str :=
  ["CRC32","MD5","SHA-1","SHA-256","SHA-384","SHA-512","SHA-3(224)","SHA-3(256)","SHA-3(384)",
    "SHA-3(512)","Blake2b(256)","SHA-224"].map fun label => label.toUTF8.data.toList

def rh_hashSizes : List Nat := [4,16,20,32,48,64,28,32,48,64,32,28]

/-- The label and the size of an algorithm; there is none behind the last. -/
def hashLabel (algo : Byte) : Str := rh_hashLabels.getD algo.toNat []
def hashSize (algo : Byte) : Nat := rh_hashSizes.getD algo.toNat 0

/-- What `HashFunction::create` makes of the labels. -/
structure HashFunctions where
  digest : Str → Str → Str
  length_digest : ∀ (algo : Byte) (s : Str), algo.toNat < rh_hash_maxAlgoIndex →
    (digest (hashLabel algo) s).length = hashSize algo

def rh_emptyHash : Str := []
def rh_errorHash : Str := [0xFF]

/-- One byte of a checksum, bit by bit. -/
def crcByte (crc : UInt32) (b : Byte) : UInt32 :=
  (List.range 8).foldl (fun crc _ => if crc &&& 1 = 1 then (crc >>> 1) ^^^ 0xEDB88320 else crc >>> 1)
    (crc ^^^ b.toUInt32)

def crc32 (s : Str) : UInt32 := s.foldl crcByte 0xFFFFFFFF ^^^ 0xFFFFFFFF

/-- The checksum, the highest byte first; for the other functions what has their lengths. -/
def crcHashes : HashFunctions where
  digest label s :=
    if label = hashLabel 0 then (littleEndian 4 (crc32 s).toNat).reverse
    else List.replicate (rh_hashSizes.getD (rh_hashLabels.idxOf label) 0) 0
  length_digest algo s halgo := by
    have hsizes : ∀ n < rh_hash_maxAlgoIndex,
        rh_hashSizes.getD (rh_hashLabels.idxOf (rh_hashLabels.getD n [])) 0 = rh_hashSizes.getD n 0 := by
      decide +kernel
    have hzero : ∀ n < rh_hash_maxAlgoIndex, rh_hashLabels.getD n [] = hashLabel 0 →
        rh_hashSizes.getD n 0 = 4 := by decide +kernel
    split_ifs with hlabel
    · rw [List.length_reverse,length_littleEndian]
      exact (hzero _ halgo hlabel).symm
    · rw [List.length_replicate]
      exact hsizes _ halgo

/-- What `rh_computeHash` returns, what it has put to `output`, and what the hash function has been
fed since it was last started. -/
structure Hashed where
  returned : Str
  output : Option Str
  hash1 : Str
  deriving DecidableEq, Repr

section Model

variable (h : HashFunctions) (v : View)

/-- `withOutput` when there is a place for the digest; a hash function that is not given is new. -/
def rh_computeHash (filePath : Str) (algo : Byte) (withOutput : Bool) (hash1 : Str)
    (finalizeHash : Bool) : Hashed :=
  match v.openRead filePath with
  | none => ⟨rh_errorHash,none,hash1⟩
  | some reading =>
    let hash1 := reading.pieces.foldl (· ++ ·) hash1
    if reading.fails then ⟨rh_errorHash,none,hash1⟩
    else if finalizeHash then
      let result := h.digest (hashLabel algo) hash1
      if withOutput then ⟨rh_emptyHash,some result,[]⟩ else ⟨result,none,[]⟩
    else ⟨rh_emptyHash,none,hash1⟩

def withNames (dirHashOpts : Byte) : Bool := b0 dirHashOpts.toNat
def ignoreThumbsFiles (dirHashOpts : Byte) : Bool := b1 dirHashOpts.toNat
def ignoreUnixHiddenFiles (dirHashOpts : Byte) : Bool := b2 dirHashOpts.toNat
def ignoreEmptyDirs (dirHashOpts : Byte) : Bool := dirHashOpts.toNat.testBit 3

def thumbsnames : List Str :=
  ["Thumbs.db",".DS_Store"].map fun name => name.toUTF8.data.toList

/-- A file of this name is passed over. -/
def passedOver (dirHashOpts : Byte) (filename : Str) : Bool :=
  (ignoreThumbsFiles dirHashOpts && filename ∈ thumbsnames) ||
    (ignoreUnixHiddenFiles dirHashOpts && filename.head? = some dot)

def dirIterator (filePath : Str) (dirHashOpts : Byte) : Option readdirIterator :=
  readdirIterator.createIterator v filePath .RELATIVE_WITHOUT_BASE .RECURSIVE (withNames dirHashOpts)
    (ignoreUnixHiddenFiles dirHashOpts)

/-- One turn of the loop with names: what the hash function is fed. -/
def updateNamed (filePath : Str) (algo dirHashOpts : Byte) (it : Current) (dirHasher : Str) : Str :=
  if it.currentEfd = .file then
    if passedOver dirHashOpts it.currentName then dirHasher
    else
      let currentFile := pathConcat filePath it.current
      (rh_computeHash h v currentFile algo false dirHasher false).hash1 ++ it.current
  else if ignoreEmptyDirs dirHashOpts && it.currentEfd = .empty then dirHasher
  else dirHasher ++ it.current

/-- The vector of the digests, and where the next one goes. -/
structure HashVector where
  hashes : Str
  hashIdx : Nat
  CURRENTMAXSIZE : Nat
  deriving DecidableEq, Repr

def hashes_size : Nat := 262144

def newHashes : HashVector := ⟨List.replicate hashes_size 0,0,hashes_size⟩

/-- The digest of a file is copied to its place; there is no result when it does not fit. -/
def HashVector.copy (x : HashVector) : Option Str → Option HashVector
  | none => some x
  | some digest =>
    if x.hashIdx + digest.length ≤ x.hashes.length then
      some { x with hashes :=
        x.hashes.take x.hashIdx ++ digest ++ x.hashes.drop (x.hashIdx + digest.length) }
    else none

/-- On to the next place, an `uint32_t`; at the end of the vector there is room made for one more. -/
def HashVector.advance (x : HashVector) (hashSize : Nat) : HashVector :=
  let hashIdx := (x.hashIdx + hashSize) % 2^32
  if hashIdx = x.CURRENTMAXSIZE then
    let CURRENTMAXSIZE := x.CURRENTMAXSIZE + hashSize
    ⟨x.hashes ++ List.replicate (CURRENTMAXSIZE - x.hashes.length) 0,hashIdx,CURRENTMAXSIZE⟩
  else { x with hashIdx := hashIdx }

/-- One turn of the loop by content. -/
def updateVector (filePath : Str) (algo dirHashOpts : Byte) (it : Current) (x : Option HashVector) :
    Option HashVector :=
  if it.currentEfd = .file then
    if passedOver dirHashOpts it.currentName then x
    else
      let currentFile := pathConcat filePath it.current
      (x.bind fun x => x.copy (rh_computeHash h v currentFile algo true [] true).output).map
        fun x => x.advance (hashSize algo)
  else x

/-- The first `count` pieces of `size` bytes. -/
def slots (size : Nat) : Nat → Str → List Str
  | 0, _ => []
  | count+1, s => s.take size :: slots size count (s.drop size)

/-- `qsort` with `memcmp`; what is left behind the last whole piece stays. -/
def sortHashes (hashSize : Nat) (hashes : Str) : Str :=
  let count := hashes.length / hashSize
  ((slots hashSize count hashes).insertionSort (· ≤ ·)).flatten ++ hashes.drop (count*hashSize)

/-- What the hash function for a directory has been fed in the end: `none` when there is no
iterator, `some none` when a digest has been copied beyond the vector. -/
def dirStream (filePath : Str) (algo dirHashOpts : Byte) : Option (Option Str) :=
  (dirIterator v filePath dirHashOpts).map fun it =>
    if withNames dirHashOpts then
      some (readdirIterator.loop v (updateNamed h v filePath algo dirHashOpts) it [])
    else
      (readdirIterator.loop v (updateVector h v filePath algo dirHashOpts) it (some newHashes)).map
        fun x => sortHashes (hashSize algo) x.hashes

/-- There is no result when memory has been written that is not the vector's. -/
def rh_computeHash_dir (filePath : Str) (algo dirHashOpts : Byte) : Option Str :=
  match dirStream h v filePath algo dirHashOpts with
  | none => some rh_emptyHash
  | some stream => stream.map (h.digest (hashLabel algo))

def rh_computeHash_wrapper (path : Str) (algo dirHashOpts : Byte) : Option Str :=
  let efd := readdirIterator.efdL v path
  if efd = .d ∨ efd = .L then rh_computeHash_dir h v path algo dirHashOpts
  else some (rh_computeHash h v path algo false [] true).returned

end Model

section Files

variable {h : HashFunctions} {v : View} {filePath : Str} {algo dirHashOpts : Byte} {hash1 : Str}

def fileContent (v : View) (filePath : Str) : Str := (v.openRead filePath).elim [] Reading.content

/-- The file can be opened and read to its end. -/
def IsRead (v : View) (filePath : Str) : Prop := ∃ r ∈ v.openRead filePath, r.fails = false

theorem foldl_pieces (pieces : List Str) (s : Str) :
    pieces.foldl (· ++ ·) s = s ++ pieces.flatten := by
  induction pieces generalizing s with
  | nil => simp
  | cons piece pieces ih => rw [List.foldl_cons,ih,List.flatten_cons,List.append_assoc]

theorem computeHash_feeds : (rh_computeHash h v filePath algo false hash1 false).hash1 =
    hash1 ++ fileContent v filePath := by
  unfold rh_computeHash fileContent
  cases hopen : v.openRead filePath with
  | none => simp
  | some r =>
    simp only [foldl_pieces,Option.elim_some]
    cases r.fails <;> rfl

theorem computeHash_output_read (hread : IsRead v filePath) :
    (rh_computeHash h v filePath algo true [] true).output =
      some (h.digest (hashLabel algo) (fileContent v filePath)) := by
  obtain ⟨r,hr,hfails⟩ := hread
  unfold rh_computeHash fileContent
  simp only [Option.mem_def] at hr
  simp only [hr,foldl_pieces,hfails,Option.elim_some]
  rfl

theorem computeHash_output_unread (hread : ¬ IsRead v filePath) :
    (rh_computeHash h v filePath algo true [] true).output = none := by
  unfold rh_computeHash
  cases hopen : v.openRead filePath with
  | none => rfl
  | some r =>
    have hfails : r.fails = true := by
      by_contra hno
      exact hread ⟨r,hopen,by simpa using hno⟩
    simp [hfails]

theorem computeHash_returned_read (hread : IsRead v filePath) :
    (rh_computeHash h v filePath algo false [] true).returned =
      h.digest (hashLabel algo) (fileContent v filePath) := by
  obtain ⟨r,hr,hfails⟩ := hread
  unfold rh_computeHash fileContent
  simp only [Option.mem_def] at hr
  simp only [hr,foldl_pieces,hfails,Option.elim_some]
  rfl

theorem computeHash_returned_unread (hread : ¬ IsRead v filePath) :
    (rh_computeHash h v filePath algo false [] true).returned = rh_errorHash := by
  unfold rh_computeHash
  cases hopen : v.openRead filePath with
  | none => rfl
  | some r =>
    have hfails : r.fails = true := by
      by_contra hno
      exact hread ⟨r,hopen,by simpa using hno⟩
    simp [hfails]

end Files

/-! ### The vector of digests -/

/-- As long as the vector is after `count` digests. -/
def vectorSize (size count : Nat) : Nat :=
  if size ∣ hashes_size then max hashes_size (min ((count+1)*size) (2^32)) else hashes_size

/-- The digests do not run over the vector's end, nor over its beginning again. -/
def Room (size count : Nat) : Prop :=
  count*size ≤ if size ∣ hashes_size then 2^32 else hashes_size

instance (size count : Nat) : Decidable (Room size count) := inferInstanceAs (Decidable (_ ≤ _))

/-- The vector after the digests `ds`: they are in front, and zeros follow. -/
structure Filled (size : Nat) (ds : List Str) (x : HashVector) : Prop where
  hashes : x.hashes = ds.flatten ++ List.replicate (vectorSize size ds.length - ds.length*size) 0
  hashIdx : x.hashIdx = ds.length*size % 2^32
  max : x.CURRENTMAXSIZE = vectorSize size ds.length

theorem filled_new {size : Nat} (hsize : size ≤ hashes_size) : Filled size [] newHashes := by
  have hmax : vectorSize size 0 = hashes_size := by
    unfold vectorSize
    split_ifs
    · rw [Nat.zero_add,Nat.one_mul]
      exact max_eq_left ((min_le_left _ _).trans hsize)
    · rfl
  refine ⟨?_,?_,?_⟩
  · simp [newHashes,hmax]
  · simp [newHashes]
  · simp [newHashes,hmax]

theorem add_le_of_dvd {d m n : Nat} (hm : d ∣ m) (hn : d ∣ n) (h : m < n) : m + d ≤ n := by
  have hle := Nat.le_of_dvd (by omega) (Nat.dvd_sub hn hm)
  omega

theorem length_flatten_of_forall {ds : List Str} {size : Nat} (h : ∀ d ∈ ds, d.length = size) :
    ds.flatten.length = ds.length*size := by
  rw [List.length_flatten,List.map_congr_left h,List.map_const',List.sum_replicate_nat]

section Vector

variable {size : Nat} {ds : List Str} {x : HashVector} {d : Str}

theorem Room.le (h : Room size (ds.length + 1)) : (ds.length + 1)*size ≤ vectorSize size ds.length := by
  unfold Room at h
  unfold vectorSize
  split_ifs at h ⊢ <;> omega

theorem Room.holds {count : Nat} (h : Room size count) : count*size ≤ vectorSize size count := by
  have hnext : (count + 1)*size = count*size + size := Nat.succ_mul _ _
  unfold Room at h
  unfold vectorSize
  split_ifs at h ⊢ <;> omega

theorem vectorSize_succ {count : Nat} (hroom : Room size (count + 1)) :
    vectorSize size (count + 1) =
      if (count + 1)*size % 2^32 = vectorSize size count then vectorSize size count + size
      else vectorSize size count := by
  unfold Room at hroom
  unfold vectorSize
  have hnext : (count + 1 + 1)*size = (count + 1)*size + size := Nat.succ_mul _ _
  have hmul : size ∣ (count + 1)*size := Nat.dvd_mul_left _ _
  rw [hnext]
  generalize (count + 1)*size = used at hroom hmul ⊢
  by_cases hdvd : size ∣ hashes_size
  · have hend : size ∣ 2^32 := Nat.dvd_trans hdvd (by decide)
    simp only [if_pos hdvd] at hroom ⊢
    have hfirst := fun h : used < hashes_size => add_le_of_dvd hmul hdvd h
    have hlast := fun h : used < 2^32 => add_le_of_dvd hmul hend h
    unfold hashes_size at *
    split_ifs <;> omega
  · simp only [if_neg hdvd] at hroom ⊢
    have hne : used ≠ hashes_size := fun h => hdvd (h ▸ hmul)
    unfold hashes_size at *
    split_ifs <;> omega

theorem Filled.store (h : Filled size ds x) (hds : ∀ e ∈ ds, e.length = size) (hd : d.length = size)
    (hsize : 0 < size) (hroom : Room size (ds.length + 1)) :
    ∃ x', (x.copy (some d)).map (fun x => x.advance size) = some x' ∧ Filled size (ds ++ [d]) x' := by
  obtain ⟨hhashes,hidx,hmax⟩ := h
  have hle := hroom.le
  have hnext : (ds.length + 1)*size = ds.length*size + size := Nat.succ_mul _ _
  have hflat := length_flatten_of_forall hds
  have hlt : ds.length*size < 2^32 := by
    unfold Room at hroom
    have hbound : (if size ∣ hashes_size then 2^32 else hashes_size) ≤ 2^32 := by
      split_ifs <;> decide
    omega
  have hlen : x.hashes.length = vectorSize size ds.length := by
    rw [hhashes,List.length_append,hflat,List.length_replicate]
    omega
  rw [Nat.mod_eq_of_lt hlt] at hidx
  have hgrow := vectorSize_succ hroom
  have htotal : (ds ++ [d]).length = ds.length + 1 := by simp
  have htake : x.hashes.take (ds.length*size) = ds.flatten := by
    rw [hhashes,← hflat,List.take_left]
  have hdrop : x.hashes.drop (ds.length*size + size) =
      List.replicate (vectorSize size ds.length - (ds.length + 1)*size) 0 := by
    rw [hhashes,← hflat,← List.drop_drop,List.drop_left,List.drop_replicate,hflat]
    congr 1
    omega
  have hfits : x.hashIdx + d.length ≤ x.hashes.length := by
    rw [hidx,hd,hlen]
    omega
  have hflatten : (ds ++ [d]).flatten = ds.flatten ++ d := by simp
  have hcopy : x.copy (some d) = some ⟨ds.flatten ++ d ++
      List.replicate (vectorSize size ds.length - (ds.length + 1)*size) 0,ds.length*size,
        vectorSize size ds.length⟩ := by
    simp only [HashVector.copy]
    rw [if_pos hfits,hidx,hd,htake,hdrop,hmax]
  rw [hcopy,Option.map_some]
  refine ⟨_,rfl,?_⟩
  simp only [HashVector.advance,← hnext]
  by_cases hend : (ds.length + 1)*size % 2^32 = vectorSize size ds.length
  · rw [if_pos hend] at hgrow ⊢
    refine ⟨?_,?_,?_⟩
    · have hnow : (ds.flatten ++ d ++ List.replicate (vectorSize size ds.length -
          (ds.length + 1)*size) (0 : Byte)).length = vectorSize size ds.length := by
        rw [List.length_append,List.length_append,hflat,hd,List.length_replicate]
        omega
      simp only [hnow,htotal,hgrow,hflatten]
      rw [List.append_assoc _ _ (List.replicate (vectorSize size ds.length + size - _) 0),
        ← List.replicate_add]
      congr 2
      omega
    · rw [htotal]
    · rw [htotal,hgrow]
  · rw [if_neg hend] at hgrow ⊢
    refine ⟨?_,?_,?_⟩
    · simp only [htotal,hgrow,hflatten]
    · rw [htotal]
    · rw [htotal,hgrow]

theorem Filled.run (h : Filled size ds x) (hds : ∀ e ∈ ds, e.length = size) {es : List Str}
    (hes : ∀ e ∈ es, e.length = size) (hsize : 0 < size) (hroom : Room size (ds.length + es.length)) :
    ∃ x', (es.map some).foldl (fun x d => (x.bind fun x => x.copy d).map fun x => x.advance size)
      (some x) = some x' ∧ Filled size (ds ++ es) x' := by
  induction es generalizing ds x with
  | nil => exact ⟨x,rfl,by rw [List.append_nil]; exact h⟩
  | cons e es ih =>
    have hfirst : Room size (ds.length + 1) := by
      have hle : (ds.length + 1)*size ≤ (ds.length + (e :: es).length)*size :=
        Nat.mul_le_mul_right size (by simp)
      exact hle.trans hroom
    obtain ⟨x',hx',hfilled⟩ := h.store hds (hes e List.mem_cons_self) hsize hfirst
    have hboth : ∀ e' ∈ ds ++ [e], e'.length = size := by
      intro e' he'
      rcases List.mem_append.mp he' with he' | he'
      · exact hds e' he'
      · exact List.mem_singleton.mp he' ▸ hes e List.mem_cons_self
    have hlen : (ds ++ [e]).length + es.length = ds.length + (e :: es).length := by
      simp only [List.length_append,List.length_cons,List.length_nil]
      omega
    rw [List.map_cons,List.foldl_cons,Option.bind_some,hx']
    have hrest := ih hfilled hboth (fun e he => hes e (List.mem_cons_of_mem _ he)) (by rw [hlen]; exact hroom)
    rwa [List.append_assoc] at hrest

/-- One turn of the loop by content, given the digest or nothing. -/
def HashVector.turn (size : Nat) (x : Option HashVector) (d : Option Str) : Option HashVector :=
  (x.bind fun x => x.copy d).map fun x => x.advance size

theorem foldl_turn_none (l : List (Option Str)) : l.foldl (HashVector.turn size) none = none := by
  induction l with
  | nil => rfl
  | cons d l ih => exact ih

theorem run_over (hdvd : ¬ size ∣ hashes_size) (hsize : 0 < size) (hle : size ≤ hashes_size)
    {es : List Str} (hes : ∀ e ∈ es, e.length = size) (hroom : ¬ Room size es.length) :
    (es.map some).foldl (HashVector.turn size) (some newHashes) = none := by
  have hmany : hashes_size < es.length*size := by
    unfold Room at hroom
    rw [if_neg hdvd] at hroom
    omega
  -- as many as fit
  have hfit : hashes_size/size*size ≤ hashes_size := Nat.div_mul_le_self _ _
  have hnext : hashes_size < (hashes_size/size + 1)*size := by
    rw [Nat.mul_comm]
    exact Nat.lt_mul_div_succ _ hsize
  have hlt : hashes_size/size < es.length := Nat.lt_of_mul_lt_mul_right (hfit.trans_lt hmany)
  obtain ⟨e,he⟩ : ∃ e, es.drop (hashes_size/size) = e :: es.drop (hashes_size/size + 1) :=
    ⟨es[hashes_size/size],List.drop_eq_getElem_cons hlt⟩
  have hsplit : es = es.take (hashes_size/size) ++ e :: es.drop (hashes_size/size + 1) := by
    rw [← he,List.take_append_drop]
  have hcount : (es.take (hashes_size/size)).length = hashes_size/size := by
    rw [List.length_take]
    omega
  obtain ⟨x,hx,hfilled⟩ := (filled_new hle).run (by simp)
    (fun e he => hes e (List.mem_of_mem_take he)) hsize (by
      unfold Room
      rw [if_neg hdvd,hcount]
      simpa using hfit)
  obtain ⟨hhashes,hidx,_⟩ := hfilled
  rw [List.nil_append,hcount] at hhashes hidx
  have hsmall : hashes_size/size*size < 2^32 := hfit.trans_lt (by decide)
  rw [Nat.mod_eq_of_lt hsmall] at hidx
  have hlen : x.hashes.length = hashes_size := by
    rw [hhashes,List.length_append,length_flatten_of_forall fun e he => hes e (List.mem_of_mem_take he),
      List.length_replicate,hcount,vectorSize,if_neg hdvd]
    omega
  have hcopy : x.copy (some e) = none := by
    have helen : e.length = size := hes e (by rw [hsplit]; simp)
    simp only [HashVector.copy]
    rw [if_neg]
    rw [hidx,helen,hlen]
    rw [Nat.succ_mul] at hnext
    omega
  have hturn : HashVector.turn size (some x) (some e) = none := by
    rw [HashVector.turn,Option.bind_some,hcopy]
    rfl
  rw [hsplit,List.map_append,List.foldl_append,List.map_cons,List.foldl_cons]
  change List.foldl _ (HashVector.turn size (List.foldl (HashVector.turn size) (some newHashes)
    (List.map some (es.take (hashes_size/size)))) (some e)) _ = none
  rw [show List.foldl (HashVector.turn size) (some newHashes)
    (List.map some (es.take (hashes_size/size))) = some x from hx,hturn,foldl_turn_none]

/-- A vector that grows does not grow beyond what an index can name. -/
structure Bounded (size : Nat) (x : HashVector) : Prop where
  length : x.hashes.length = x.CURRENTMAXSIZE
  dvd : size ∣ x.CURRENTMAXSIZE
  le : x.CURRENTMAXSIZE ≤ 2^32

theorem Bounded.turn (h : Bounded size x) (hdvd : size ∣ hashes_size) {d : Option Str} {x' : HashVector}
    (hturn : HashVector.turn size (some x) d = some x') : Bounded size x' := by
  obtain ⟨hlen,hmul,hle⟩ := h
  obtain ⟨y,hy,rfl⟩ := Option.map_eq_some_iff.mp hturn
  have hcopied : y.hashes.length = x.CURRENTMAXSIZE ∧ y.CURRENTMAXSIZE = x.CURRENTMAXSIZE := by
    rw [Option.bind_some] at hy
    cases d with
    | none =>
      obtain rfl := Option.some.inj hy
      exact ⟨hlen,rfl⟩
    | some d =>
      simp only [HashVector.copy] at hy
      split_ifs at hy with hfits
      obtain rfl := Option.some.inj hy
      refine ⟨?_,rfl⟩
      simp only [List.length_append,List.length_take,List.length_drop]
      omega
  unfold HashVector.advance
  simp only
  split_ifs with hend
  · have hend' : x.CURRENTMAXSIZE < 2^32 := by
      rw [← hcopied.2,← hend]
      exact Nat.mod_lt _ (by decide)
    have hnext := add_le_of_dvd hmul (Nat.dvd_trans hdvd (by decide)) hend'
    refine ⟨?_,?_,?_⟩
    · simp only [List.length_append,List.length_replicate]
      omega
    · rw [hcopied.2]
      exact Nat.dvd_add hmul (Nat.dvd_refl size)
    · rw [hcopied.2]
      exact hnext
  · exact ⟨hcopied.1.trans hcopied.2.symm,hcopied.2 ▸ hmul,hcopied.2 ▸ hle⟩

theorem Bounded.run (h : Bounded size x) (hdvd : size ∣ hashes_size) {l : List (Option Str)}
    {x' : HashVector} (hrun : l.foldl (HashVector.turn size) (some x) = some x') : Bounded size x' := by
  induction l generalizing x with
  | nil => exact Option.some.inj hrun ▸ h
  | cons d l ih =>
    rw [List.foldl_cons] at hrun
    cases hturn : HashVector.turn size (some x) d with
    | none => rw [hturn,foldl_turn_none] at hrun; cases hrun
    | some y => exact ih (h.turn hdvd hturn) (hturn ▸ hrun)

theorem bounded_new (hdvd : size ∣ hashes_size) : Bounded size newHashes :=
  ⟨List.length_replicate,hdvd,by decide⟩

theorem slots_cons {n : Nat} {rest : Str} (hd : d.length = size) :
    slots size (n+1) (d ++ rest) = d :: slots size n rest := by
  rw [slots,← hd,List.take_left,List.drop_left]

theorem slots_flatten {es : List Str} (hes : ∀ e ∈ es, e.length = size) {n : Nat} {rest : Str} :
    slots size (es.length + n) (es.flatten ++ rest) = es ++ slots size n rest := by
  induction es with
  | nil => simp
  | cons e es ih =>
    have hlen : (e :: es).length + n = es.length + n + 1 := by
      rw [List.length_cons]
      omega
    rw [hlen,List.flatten_cons,List.append_assoc,slots_cons (hes e List.mem_cons_self),
      ih fun e he => hes e (List.mem_cons_of_mem _ he),List.cons_append]

theorem length_of_mem_slots {n : Nat} {s : Str} (h : n*size ≤ s.length) (hd : d ∈ slots size n s) :
    d.length = size := by
  induction n generalizing s with
  | zero => simp [slots] at hd
  | succ n ih =>
    rw [Nat.succ_mul] at h
    rcases List.mem_cons.mp hd with rfl | hd
    · rw [List.length_take]
      omega
    · exact ih (by rw [List.length_drop]; omega) hd

theorem length_slots (n : Nat) (s : Str) : (slots size n s).length = n := by
  induction n generalizing s with
  | zero => rfl
  | succ n ih => rw [slots,List.length_cons,ih]

theorem length_of_mem_sorted {s : Str}
    (hd : d ∈ (slots size (s.length/size) s).insertionSort (· ≤ ·)) : d.length = size :=
  length_of_mem_slots (Nat.div_mul_le_self _ _) ((List.mem_insertionSort _).mp hd)

theorem length_sortHashes (s : Str) : (sortHashes size s).length = s.length := by
  have hle : s.length/size*size ≤ s.length := Nat.div_mul_le_self _ _
  rw [sortHashes,List.length_append,length_flatten_of_forall fun _ => length_of_mem_sorted,
    List.length_insertionSort,length_slots,List.length_drop]
  omega

theorem slots_sortHashes (s : Str) : slots size ((sortHashes size s).length/size) (sortHashes size s) =
    (slots size (s.length/size) s).insertionSort (· ≤ ·) := by
  have hslots : slots size (((slots size (s.length/size) s).insertionSort (· ≤ ·)).length + 0)
      (sortHashes size s) = _ := slots_flatten fun _ => length_of_mem_sorted
  rw [List.length_insertionSort,length_slots,Nat.add_zero] at hslots
  rw [length_sortHashes,hslots,slots,List.append_nil]

section Sorted

variable (h : Filled size ds x) (hds : ∀ e ∈ ds, e.length = size) (hsize : 0 < size)
  (hroom : ds.length*size ≤ vectorSize size ds.length)

include h hds hroom in
theorem Filled.length : x.hashes.length = vectorSize size ds.length := by
  rw [h.hashes,List.length_append,length_flatten_of_forall hds,List.length_replicate]
  omega

include h hds hsize hroom

theorem Filled.slots_eq : slots size (x.hashes.length/size) x.hashes =
    ds ++ slots size (vectorSize size ds.length/size - ds.length)
      (List.replicate (vectorSize size ds.length - ds.length*size) 0) := by
  have hle : ds.length ≤ vectorSize size ds.length/size := (Nat.le_div_iff_mul_le hsize).mpr hroom
  have hcount : vectorSize size ds.length/size =
      ds.length + (vectorSize size ds.length/size - ds.length) := by omega
  rw [h.length hds hroom,hcount,h.hashes,slots_flatten hds]
  rw [Nat.add_sub_cancel_left]

theorem Filled.subperm : ds.Subperm (slots size ((sortHashes size x.hashes).length/size)
    (sortHashes size x.hashes)) := by
  rw [slots_sortHashes,h.slots_eq hds hsize hroom]
  exact (List.sublist_append_left _ _).subperm.trans (List.perm_insertionSort _ _).symm.subperm

theorem Filled.sortHashes_eq {ds' : List Str} {x' : HashVector} (h' : Filled size ds' x')
    (hperm : ds.Perm ds') : sortHashes size x.hashes = sortHashes size x'.hashes := by
  have hlen : ds'.length = ds.length := hperm.length_eq.symm
  have hds' : ∀ e ∈ ds', e.length = size := fun e he => hds e (hperm.mem_iff.mpr he)
  have hroom' : ds'.length*size ≤ vectorSize size ds'.length := by rw [hlen]; exact hroom
  have hsorted : (slots size (x.hashes.length/size) x.hashes).insertionSort (· ≤ ·) =
      (slots size (x'.hashes.length/size) x'.hashes).insertionSort (· ≤ ·) := by
    refine List.Perm.eq_of_pairwise' (List.pairwise_insertionSort _ _)
      (List.pairwise_insertionSort _ _) ?_
    refine (List.perm_insertionSort _ _).trans (List.Perm.trans ?_ (List.perm_insertionSort _ _).symm)
    rw [h.slots_eq hds hsize hroom,h'.slots_eq hds' hsize hroom',hlen]
    exact hperm.append_right _
  have hrest : x.hashes.drop (x.hashes.length/size*size) =
      x'.hashes.drop (x'.hashes.length/size*size) := by
    have hle : ds.length*size ≤ vectorSize size ds.length/size*size :=
      Nat.mul_le_mul_right size ((Nat.le_div_iff_mul_le hsize).mpr hroom)
    have hzeros : ∀ (s zeros : Str), s.length = ds.length*size →
        (s ++ zeros).drop (vectorSize size ds.length/size*size) =
          zeros.drop (vectorSize size ds.length/size*size - ds.length*size) := by
      intro s zeros hs
      rw [List.drop_append,List.drop_of_length_le (hs ▸ hle),hs,List.nil_append]
    have hflat' := length_flatten_of_forall hds'
    rw [hlen] at hflat'
    rw [h.length hds hroom,h'.length hds' hroom',hlen,h.hashes,h'.hashes,hlen,
      hzeros _ _ (length_flatten_of_forall hds),hzeros _ _ hflat']
  rw [sortHashes,sortHashes,hsorted,hrest]

end Sorted

end Vector

section Stream

variable (h : HashFunctions) (v : View) (filePath : Str) (algo dirHashOpts : Byte)

/-- What an iteration hands out of the files that are hashed. -/
def filesHashed (it : readdirIterator) : List Current :=
  (it.items v).filter fun i => i.currentEfd = .file ∧ passedOver dirHashOpts i.currentName = false

/-- What the hash function is fed of one item, with names. -/
def named (i : Current) : Str :=
  if i.currentEfd = .file then
    if passedOver dirHashOpts i.currentName then []
    else fileContent v (pathConcat filePath i.current) ++ i.current
  else if ignoreEmptyDirs dirHashOpts && i.currentEfd = .empty then []
  else i.current

def contentDigest (i : Current) : Str :=
  h.digest (hashLabel algo) (fileContent v (pathConcat filePath i.current))

variable {h v filePath algo dirHashOpts} {it : readdirIterator}

theorem hashSize_pos (halgo : algo.toNat < rh_hash_maxAlgoIndex) : 0 < hashSize algo := by
  have hsizes : ∀ n < rh_hash_maxAlgoIndex, 0 < rh_hashSizes.getD n 0 := by decide
  exact hsizes _ halgo

theorem hashSize_le (halgo : algo.toNat < rh_hash_maxAlgoIndex) : hashSize algo ≤ hashes_size := by
  have hsizes : ∀ n < rh_hash_maxAlgoIndex, rh_hashSizes.getD n 0 ≤ hashes_size := by decide
  exact hsizes _ halgo

theorem updateNamed_eq (i : Current) (s : Str) :
    updateNamed h v filePath algo dirHashOpts i s = s ++ named v filePath dirHashOpts i := by
  unfold updateNamed named
  simp only [computeHash_feeds]
  split_ifs <;> simp

theorem dirStream_names (hit : dirIterator v filePath dirHashOpts = some it)
    (hnames : withNames dirHashOpts = true) : dirStream h v filePath algo dirHashOpts =
      some (some ((it.items v).flatMap (named v filePath dirHashOpts))) := by
  have hfold : ∀ (l : List Current) (s : Str),
      l.foldl (fun s i => updateNamed h v filePath algo dirHashOpts i s) s =
        s ++ l.flatMap (named v filePath dirHashOpts) := by
    intro l
    induction l with
    | nil => simp
    | cons i l ih =>
      intro s
      rw [List.foldl_cons,ih,updateNamed_eq,List.flatMap_cons,List.append_assoc]
  rw [dirStream,hit,Option.map_some,if_pos hnames,readdirIterator.loop_eq,hfold,List.nil_append]

theorem foldl_updateVector (l : List Current) (x : Option HashVector) :
    l.foldl (fun x i => updateVector h v filePath algo dirHashOpts i x) x =
      ((l.filter fun i => i.currentEfd = .file ∧ passedOver dirHashOpts i.currentName = false).map
        fun i => (rh_computeHash h v (pathConcat filePath i.current) algo true [] true).output).foldl
          (HashVector.turn (hashSize algo)) x := by
  induction l generalizing x with
  | nil => rfl
  | cons i l ih =>
    rw [List.foldl_cons,ih]
    by_cases hfile : i.currentEfd = .file
    · by_cases hpass : passedOver dirHashOpts i.currentName = true
      · rw [List.filter_cons_of_neg (by simp [hpass]),updateVector,if_pos hfile,if_pos hpass]
      · rw [List.filter_cons_of_pos (by simp [hfile,hpass]),updateVector,if_pos hfile,if_neg hpass]
        rfl
    · rw [List.filter_cons_of_neg (by simp [hfile]),updateVector,if_neg hfile]

theorem dirStream_contents (hit : dirIterator v filePath dirHashOpts = some it)
    (hnames : withNames dirHashOpts = false) : dirStream h v filePath algo dirHashOpts =
      some ((((filesHashed v dirHashOpts it).map fun i =>
        (rh_computeHash h v (pathConcat filePath i.current) algo true [] true).output).foldl
          (HashVector.turn (hashSize algo)) (some newHashes)).map
            fun x => sortHashes (hashSize algo) x.hashes) := by
  rw [dirStream,hit,Option.map_some,if_neg (by rw [hnames]; exact Bool.false_ne_true),
    readdirIterator.loop_eq,foldl_updateVector]
  rfl

variable (h v filePath) in
theorem length_contentDigest (halgo : algo.toNat < rh_hash_maxAlgoIndex) (l : List Current) :
    ∀ d ∈ l.map (contentDigest h v filePath algo), d.length = hashSize algo := by
  intro d hd
  obtain ⟨i,_,rfl⟩ := List.mem_map.mp hd
  exact h.length_digest algo _ halgo

theorem outputs_of_isRead
    (hread : ∀ i ∈ filesHashed v dirHashOpts it, IsRead v (pathConcat filePath i.current)) :
    ((filesHashed v dirHashOpts it).map fun i =>
      (rh_computeHash h v (pathConcat filePath i.current) algo true [] true).output) =
        ((filesHashed v dirHashOpts it).map (contentDigest h v filePath algo)).map some := by
  rw [List.map_map]
  exact List.map_congr_left fun i hi => computeHash_output_read (hread i hi)

variable (h) in
theorem contents_filled (hit : dirIterator v filePath dirHashOpts = some it)
    (hnames : withNames dirHashOpts = false) (halgo : algo.toNat < rh_hash_maxAlgoIndex)
    (hread : ∀ i ∈ filesHashed v dirHashOpts it, IsRead v (pathConcat filePath i.current))
    (hroom : Room (hashSize algo) (filesHashed v dirHashOpts it).length) :
    ∃ x, Filled (hashSize algo) ((filesHashed v dirHashOpts it).map (contentDigest h v filePath algo)) x ∧
      dirStream h v filePath algo dirHashOpts = some (some (sortHashes (hashSize algo) x.hashes)) := by
  have hlen := length_contentDigest h v filePath halgo (filesHashed v dirHashOpts it)
  rw [← List.length_map (contentDigest h v filePath algo)] at hroom
  obtain ⟨x,hx,hfilled⟩ := (filled_new (hashSize_le halgo)).run (by simp) hlen (hashSize_pos halgo)
    (by rw [List.length_nil,Nat.zero_add]; exact hroom)
  rw [List.nil_append] at hfilled
  refine ⟨x,hfilled,?_⟩
  rw [dirStream_contents hit hnames,outputs_of_isRead hread]
  exact congrArg (fun x => some (Option.map _ x)) hx

end Stream

end RootHelper
