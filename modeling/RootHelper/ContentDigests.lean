import Mathlib.Data.Nat.Digits.Lemmas
import RootHelper.HashExchange

/-!
The vector of digests by content: for how many files it is long enough, and what two directories must
have in common to fill it alike. A file that cannot be read leaves its place as it was, which is zeros.
-/

set_option autoImplicit false

namespace RootHelper
open Posix

section Vector

variable {size : Nat} {ds : List Str} {x : HashVector}

def noDigest (size : Nat) : Str := List.replicate size 0

/-- What ends up in the place of each file. -/
def records (size : Nat) (os : List (Option Str)) : List Str := os.map fun o => o.getD (noDigest size)

theorem Filled.idle (h : Filled size ds x) (hds : ∀ e ∈ ds, e.length = size)
    (hroom : Room size (ds.length + 1)) : x.copy none = x.copy (some (noDigest size)) := by
  obtain ⟨hhashes,hidx,_⟩ := h
  have hle := hroom.le
  have hnext : (ds.length + 1)*size = ds.length*size + size := Nat.succ_mul _ _
  have hflat := length_flatten_of_forall hds
  have hlt : ds.length*size % 2^32 = ds.length*size ∨ size = 0 := by
    unfold Room at hroom
    have hbound : (if size ∣ hashes_size then 2^32 else hashes_size) ≤ 2^32 := by
      split_ifs <;> decide
    omega
  have hidx' : x.hashIdx = ds.length*size := by
    rcases hlt with hlt | hzero
    · rw [hidx,hlt]
    · rw [hidx,hzero]
      simp
  have hsplit : vectorSize size ds.length - ds.length*size =
      size + (vectorSize size ds.length - ds.length*size - size) := by omega
  have htake : x.hashes.take x.hashIdx = ds.flatten := by
    rw [hhashes,hidx',← hflat,List.take_left]
  have hdrop : x.hashes.drop (x.hashIdx + size) =
      List.replicate (vectorSize size ds.length - ds.length*size - size) 0 := by
    rw [hhashes,hidx',← hflat,← List.drop_drop,List.drop_left,List.drop_replicate]
  have hfits : x.hashIdx + (noDigest size).length ≤ x.hashes.length := by
    rw [hhashes,hidx',List.length_append,hflat]
    simp only [noDigest,List.length_replicate]
    omega
  have hsame : x.hashes.take x.hashIdx ++ noDigest size ++ x.hashes.drop (x.hashIdx + size) =
      x.hashes := by
    rw [htake,hdrop,hhashes,noDigest,List.append_assoc,← List.replicate_add,← hsplit]
  have hlen : (noDigest size).length = size := List.length_replicate
  simp only [HashVector.copy]
  rw [if_pos hfits,hlen,hsame]

theorem Filled.runRecords (h : Filled size ds x) (hds : ∀ e ∈ ds, e.length = size)
    {os : List (Option Str)} (hos : ∀ d, some d ∈ os → d.length = size) (hsize : 0 < size)
    (hroom : Room size (ds.length + os.length)) :
    ∃ x', os.foldl (HashVector.turn size) (some x) = some x' ∧
      Filled size (ds ++ records size os) x' := by
  induction os generalizing ds x with
  | nil => exact ⟨x,rfl,by simpa [records] using h⟩
  | cons o os ih =>
    have hfirst : Room size (ds.length + 1) := by
      have hle : (ds.length + 1)*size ≤ (ds.length + (o :: os).length)*size :=
        Nat.mul_le_mul_right size (by simp)
      exact hle.trans hroom
    have hlen : (o.getD (noDigest size)).length = size := by
      cases o with
      | none => exact List.length_replicate
      | some d => exact hos d (by simp)
    have hcopy : x.copy o = x.copy (some (o.getD (noDigest size))) := by
      cases o with
      | none => exact h.idle hds hfirst
      | some d => rfl
    obtain ⟨x',hx',hfilled⟩ := h.store hds hlen hsize hfirst
    have hturn : HashVector.turn size (some x) o = some x' := by
      rw [HashVector.turn,Option.bind_some,hcopy,hx']
    have hboth : ∀ e ∈ ds ++ [o.getD (noDigest size)], e.length = size := by
      intro e he
      rcases List.mem_append.mp he with he | he
      · exact hds e he
      · rw [List.mem_singleton.mp he,hlen]
    have hcount : (ds ++ [o.getD (noDigest size)]).length + os.length =
        ds.length + (o :: os).length := by
      simp only [List.length_append,List.length_cons,List.length_nil]
      omega
    obtain ⟨y,hy,hall⟩ := ih hfilled hboth (fun d hd => hos d (List.mem_cons_of_mem _ hd))
      (by rw [hcount]; exact hroom)
    refine ⟨y,by rw [List.foldl_cons,hturn,hy],?_⟩
    simpa only [records,List.map_cons,List.append_assoc,List.singleton_append] using hall

end Vector

section Stream

variable (h : HashFunctions) (v : View) (filePath : Str) (algo dirHashOpts : Byte)

/-- For each regular file that is not passed over its digest, or nothing where it cannot be read. -/
def fileDigests (it : readdirIterator) : List (Option Str) :=
  (filesHashed v dirHashOpts it).map fun i =>
    (rh_computeHash h v (pathConcat filePath i.current) algo true [] true).output

/-- No digest is written beyond the vector, and all are among the records that are hashed. -/
def KeepsDigests (it : readdirIterator) : Prop :=
  ∃ s, dirStream h v filePath algo dirHashOpts = some (some s) ∧
    ((fileDigests h v filePath algo dirHashOpts it).filterMap id).Subperm
      (slots (hashSize algo) (s.length/hashSize algo) s)

variable {h v filePath algo dirHashOpts} {it : readdirIterator}

theorem length_fileDigests :
    (fileDigests h v filePath algo dirHashOpts it).length = (filesHashed v dirHashOpts it).length := by
  simp [fileDigests]

theorem length_of_mem_fileDigests (halgo : algo.toNat < rh_hash_maxAlgoIndex) {d : Str}
    (hd : some d ∈ fileDigests h v filePath algo dirHashOpts it) : d.length = hashSize algo := by
  obtain ⟨i,_,hi⟩ := List.mem_map.mp hd
  by_cases hread : IsRead v (pathConcat filePath i.current)
  · rw [computeHash_output_read hread] at hi
    exact Option.some.inj hi ▸ h.length_digest algo _ halgo
  · rw [computeHash_output_unread hread] at hi
    cases hi

variable (h) in
theorem contents_records (hit : dirIterator v filePath dirHashOpts = some it)
    (hnames : withNames dirHashOpts = false) (halgo : algo.toNat < rh_hash_maxAlgoIndex)
    (hroom : Room (hashSize algo) (filesHashed v dirHashOpts it).length) :
    ∃ x, Filled (hashSize algo)
        (records (hashSize algo) (fileDigests h v filePath algo dirHashOpts it)) x ∧
      dirStream h v filePath algo dirHashOpts = some (some (sortHashes (hashSize algo) x.hashes)) := by
  have hlen : ∀ d, some d ∈ fileDigests h v filePath algo dirHashOpts it →
      d.length = hashSize algo := fun d hd => length_of_mem_fileDigests halgo hd
  obtain ⟨x,hx,hfilled⟩ := (filled_new (hashSize_le halgo)).runRecords (by simp) hlen
    (hashSize_pos halgo) (by rw [List.length_nil,Nat.zero_add,length_fileDigests]; exact hroom)
  rw [List.nil_append] at hfilled
  refine ⟨x,hfilled,?_⟩
  rw [dirStream_contents hit hnames]
  exact congrArg (fun x => some (Option.map _ x)) hx

theorem length_of_mem_records (halgo : algo.toNat < rh_hash_maxAlgoIndex) :
    ∀ e ∈ records (hashSize algo) (fileDigests h v filePath algo dirHashOpts it),
      e.length = hashSize algo := by
  intro e he
  obtain ⟨o,ho,rfl⟩ := List.mem_map.mp he
  cases o with
  | none => exact List.length_replicate
  | some d => exact length_of_mem_fileDigests halgo ho

theorem keepsDigests_of_room (hit : dirIterator v filePath dirHashOpts = some it)
    (hnames : withNames dirHashOpts = false) (halgo : algo.toNat < rh_hash_maxAlgoIndex)
    (hroom : Room (hashSize algo) (filesHashed v dirHashOpts it).length) :
    KeepsDigests h v filePath algo dirHashOpts it := by
  obtain ⟨x,hfilled,hx⟩ := contents_records h hit hnames halgo hroom
  have hlen : (records (hashSize algo) (fileDigests h v filePath algo dirHashOpts it)).length =
      (filesHashed v dirHashOpts it).length := by simp [records,fileDigests]
  have hsub : ((fileDigests h v filePath algo dirHashOpts it).filterMap id).Sublist
      (records (hashSize algo) (fileDigests h v filePath algo dirHashOpts it)) := by
    unfold records
    induction fileDigests h v filePath algo dirHashOpts it with
    | nil => exact List.Sublist.refl _
    | cons o os ih =>
      cases o with
      | none => exact ih.cons _
      | some d => exact ih.cons_cons d
  refine ⟨_,hx,hsub.subperm.trans (hfilled.subperm (length_of_mem_records halgo)
    (hashSize_pos halgo) ?_)⟩
  rw [hlen]
  exact hroom.holds

theorem room_of_keepsDigests (hit : dirIterator v filePath dirHashOpts = some it)
    (hnames : withNames dirHashOpts = false) (halgo : algo.toNat < rh_hash_maxAlgoIndex)
    (hread : ∀ i ∈ filesHashed v dirHashOpts it, IsRead v (pathConcat filePath i.current))
    (hkeeps : KeepsDigests h v filePath algo dirHashOpts it) :
    Room (hashSize algo) (filesHashed v dirHashOpts it).length := by
  obtain ⟨s,hs,hsub⟩ := hkeeps
  have hdigests : fileDigests h v filePath algo dirHashOpts it =
      ((filesHashed v dirHashOpts it).map (contentDigest h v filePath algo)).map some :=
    outputs_of_isRead hread
  rw [hdigests,List.filterMap_map,Function.id_comp,List.filterMap_some] at hsub
  exact room_of_contents hit hnames halgo hread hs hsub

end Stream

def flatRoot : Str := text ['/','d']

def flatName (k : Nat) : Name := 97 :: (Nat.digits 10 k).map fun digit => UInt8.ofNat (48 + digit)

def flatPaths (n : Nat) : List Str := (List.range n).map fun k => flatRoot ++ slash :: flatName k

def plainStat (kind : Kind) : Stat := ⟨kind,0o755,0,0,0,0,0,0⟩

/-- `/d` with `n` files in it, all of one content or none of them to be opened. -/
def flatView (n : Nat) (content : Option Str) : View where
  lstat s := if s = flatRoot then some (plainStat .dir) else if s ∈ flatPaths n then
    some (plainStat .file) else none
  stat s := if s = flatRoot then some (plainStat .dir) else if s ∈ flatPaths n then
    some (plainStat .file) else none
  opendir s := if s = flatRoot then some ((List.range n).map flatName) else none
  openRead s := if s ∈ flatPaths n then content.map fun c =>
    ⟨[c].filter (· ≠ []),onePiece_ne_nil c,false⟩ else none
  username _ := none
  errno _ := 2
  errno_pos := errno_two_pos
  errno_lt := errno_two_lt
  short s ns h := by
    split_ifs at h with hs
    rw [hs]
    decide

def flatIterator (n : Nat) : readdirIterator :=
  ⟨3,.RECURSIVE,false,false,((List.range n).map fun k =>
    (flatRoot ++ slash :: flatName k,flatName k)).reverse⟩

theorem flatView_iterator (n : Nat) (content : Option Str) :
    dirIterator (flatView n content) flatRoot 0 = some (flatIterator n) := by
  have habs : absolute flatRoot := by decide
  have hopts : withNames 0 = false ∧ ignoreUnixHiddenFiles 0 = false := by decide
  have hall : ((List.range n).map flatName).filter (filterMatch false) =
      (List.range n).map flatName := List.filter_eq_self.mpr fun _ _ => rfl
  simp only [dirIterator,readdirIterator.createIterator,flatView,habs,not_true_eq_false,if_false,
    if_true,hopts.1,hopts.2,readdirIterator.level,Bool.false_eq_true,hall,List.map_map]
  rfl

theorem flatView_file {n : Nat} {content : Option Str} {e : Str × Name} (he : e ∈ (flatIterator n).S) :
    readdirIterator.efdL (flatView n content) e.1 = .file ∧ e.1 ∈ flatPaths n := by
  obtain ⟨k,hk,rfl⟩ := List.mem_map.mp (List.mem_reverse.mp he)
  have hmem : flatRoot ++ slash :: flatName k ∈ flatPaths n := List.mem_map.mpr ⟨k,hk,rfl⟩
  exact ⟨by simp [readdirIterator.efdL,flatView,hmem,plainStat],hmem⟩

theorem flatView_opened {n : Nat} {content : Option Str} {e : Str × Name}
    (he : e ∈ (flatIterator n).S) : (flatIterator n).opened (flatView n content) e.1 = none := by
  rw [readdirIterator.opened,(flatView_file he).1]
  rfl

theorem flatView_filesHashed (n : Nat) (content : Option Str) :
    filesHashed (flatView n content) 0 (flatIterator n) =
      (flatIterator n).S.map fun e => ⟨e.1.drop 3,e.2,.file⟩ := by
  have hentries : (flatIterator n).entries (flatView n content) = (flatIterator n).S := by
    have hbelow : ∀ e ∈ (flatIterator n).S,
        (flatIterator n).below (flatView n content) (readdirIterator.deep e.1) e = [e] := by
      intro e he
      rw [readdirIterator.below_unfold,flatView_opened he]
      rfl
    rw [readdirIterator.entries,List.flatMap_congr hbelow,List.flatMap_singleton']
  have hitem : ∀ e ∈ (flatIterator n).S,
      (flatIterator n).item (flatView n content) e = ⟨e.1.drop 3,e.2,.file⟩ := by
    intro e he
    rw [readdirIterator.item,flatView_opened he,(flatView_file he).1]
    rfl
  rw [filesHashed,readdirIterator.items,hentries,List.map_congr_left hitem]
  refine List.filter_eq_self.mpr fun i hi => ?_
  obtain ⟨e,_,rfl⟩ := List.mem_map.mp hi
  have hopts : ignoreThumbsFiles 0 = false ∧ ignoreUnixHiddenFiles 0 = false := by decide
  simp [passedOver,hopts.1,hopts.2]

theorem flatView_count (n : Nat) (content : Option Str) :
    (filesHashed (flatView n content) 0 (flatIterator n)).length = n := by
  rw [flatView_filesHashed]
  simp [flatIterator]

theorem flatView_isRead {n : Nat} {c : Str} :
    ∀ i ∈ filesHashed (flatView n (some c)) 0 (flatIterator n),
      IsRead (flatView n (some c)) (pathConcat flatRoot i.current) := by
  intro i hi
  rw [flatView_filesHashed] at hi
  obtain ⟨e,he,rfl⟩ := List.mem_map.mp hi
  obtain ⟨k,hk,rfl⟩ := List.mem_map.mp (List.mem_reverse.mp he)
  have hpath : pathConcat flatRoot ((flatRoot ++ slash :: flatName k).drop 3) =
      flatRoot ++ slash :: flatName k := rfl
  have hmem : flatRoot ++ slash :: flatName k ∈ flatPaths n := List.mem_map.mpr ⟨k,hk,rfl⟩
  rw [hpath]
  have hopen : (flatView n (some c)).openRead (flatRoot ++ slash :: flatName k) = some
      ⟨[c].filter (· ≠ []),fun s hs => by simpa using (List.mem_filter.mp hs).2,false⟩ := if_pos hmem
  exact ⟨_,hopen,rfl⟩

/-- For which numbers of files the digests are kept, whatever the directory. -/
theorem keepsDigests_iff (h : HashFunctions) {algo : Byte}
    (halgo : algo.toNat < rh_hash_maxAlgoIndex) (n : Nat) :
    (∀ v filePath dirHashOpts it, dirIterator v filePath dirHashOpts = some it →
      withNames dirHashOpts = false → (filesHashed v dirHashOpts it).length = n →
        KeepsDigests h v filePath algo dirHashOpts it) ↔ Room (hashSize algo) n := by
  constructor
  · intro hkeeps
    have hit := flatView_iterator n (some [])
    have hcount := flatView_count n (some [])
    rw [← hcount]
    exact room_of_keepsDigests hit (by decide) halgo flatView_isRead
      (hkeeps _ flatRoot 0 _ hit (by decide) hcount)
  · rintro hroom v filePath dirHashOpts it hit hnames rfl
    exact keepsDigests_of_room hit hnames halgo hroom

/-- With SHA-1 the digests of 13107 files fit. -/
theorem keepsDigests_full :
    KeepsDigests crcHashes (flatView 13107 (some [])) flatRoot 2 0 (flatIterator 13107) :=
  (keepsDigests_iff crcHashes (by decide) 13107).mpr (by decide) _ _ _ _ (flatView_iterator 13107 _)
    (by decide) (flatView_count 13107 _)

/-- The digest of file 13108 does not. -/
theorem keepsDigests_many :
    dirIterator (flatView 13108 (some [])) flatRoot 0 = some (flatIterator 13108) ∧
      ¬ KeepsDigests crcHashes (flatView 13108 (some [])) flatRoot 2 0 (flatIterator 13108) := by
  have hit := flatView_iterator 13108 (some [])
  refine ⟨hit,fun hkeeps => ?_⟩
  have hroom := room_of_keepsDigests hit (by decide) (by decide) flatView_isRead hkeeps
  rw [flatView_count] at hroom
  revert hroom
  decide

/-! ### Two directories -/

section Multisets

variable {α : Type} [DecidableEq α] [BEq α] [LawfulBEq α]

theorem length_eq_count_add (z : α) (l : List α) :
    l.length = l.count z + (l.filter (· ≠ z)).length := by
  induction l with
  | nil => rfl
  | cons a l ih =>
    by_cases ha : a = z
    · simp [ha,ih]
      omega
    · simp [ha,ih]
      omega

theorem count_somes (d : α) (l : List (Option α)) : (l.filterMap id).count d = l.count (some d) := by
  induction l with
  | nil => rfl
  | cons o l ih =>
    cases o with
    | none =>
      have hne : ¬ (none == some d) = true := by simp
      rw [List.count_cons,if_neg hne,Nat.add_zero,← ih]
      rfl
    | some e =>
      have hcons : (some e :: l).filterMap id = e :: l.filterMap id := rfl
      rw [hcons,List.count_cons,List.count_cons,ih]
      simp

theorem perm_of_filter_ne {l l' : List α} (z : α) (hlen : l.length = l'.length)
    (h : (l.filter (· ≠ z)).Perm (l'.filter (· ≠ z))) : l.Perm l' := by
  have hcount : ∀ a ≠ z, l.count a = l'.count a := by
    intro a ha
    have hp := h.count_eq a
    rwa [List.count_filter (by simpa using ha),List.count_filter (by simpa using ha)] at hp
  have hz : l.count z = l'.count z := by
    have hl := length_eq_count_add z l
    have hl' := length_eq_count_add z l'
    have hrest := h.length_eq
    omega
  refine List.perm_iff_count.mpr fun a => ?_
  by_cases ha : a = z
  · rw [ha,hz]
  · exact hcount a ha

end Multisets

section Records

variable {size : Nat}

/-- The digests that cannot be taken for an empty place. -/
def realDigests (size : Nat) (os : List (Option Str)) : List Str :=
  (os.filterMap id).filter (· ≠ noDigest size)

theorem filter_records (os : List (Option Str)) :
    (records size os).filter (· ≠ noDigest size) = realDigests size os := by
  unfold records realDigests
  induction os with
  | nil => rfl
  | cons o os ih =>
    cases o with
    | none => simpa using ih
    | some d => simp only [List.map_cons,Option.getD_some,List.filterMap_cons,id,List.filter_cons,ih]

variable (size) in
theorem perm_digests_iff {os os' : List (Option Str)} : os.Perm os' ↔
    (realDigests size os).Perm (realDigests size os') ∧ os.count none = os'.count none ∧
      os.count (some (noDigest size)) = os'.count (some (noDigest size)) := by
  constructor
  · intro h
    exact ⟨(h.filterMap id).filter _,h.count_eq _,h.count_eq _⟩
  · rintro ⟨hreal,hnone,hzero⟩
    have hlen : (os.filterMap id).length = (os'.filterMap id).length := by
      have hl := length_eq_count_add (noDigest size) (os.filterMap id)
      have hl' := length_eq_count_add (noDigest size) (os'.filterMap id)
      have hrest := hreal.length_eq
      rw [← count_somes,← count_somes] at hzero
      simp only [realDigests] at hrest
      omega
    have hsomes := perm_of_filter_ne (noDigest size) hlen hreal
    refine List.perm_iff_count.mpr fun o => ?_
    cases o with
    | none => exact hnone
    | some d => rw [← count_somes,← count_somes,hsomes.count_eq]

theorem slots_zeros (k m : Nat) (h : k*size ≤ m) :
    slots size k (List.replicate m 0) = List.replicate k (noDigest size) := by
  induction k generalizing m with
  | zero => rfl
  | succ k ih =>
    have hnext : (k + 1)*size = k*size + size := Nat.succ_mul _ _
    have hfirst : (List.replicate m (0 : Byte)).take size = noDigest size := by
      rw [List.take_replicate,noDigest,Nat.min_eq_left (by omega)]
    have hrest : (List.replicate m (0 : Byte)).drop size = List.replicate (m - size) 0 := by
      rw [List.drop_replicate]
    rw [slots,hfirst,hrest,ih _ (by omega),List.replicate_succ]

variable {os : List (Option Str)} {x : HashVector}
  (h : Filled size (records size os) x) (hos : ∀ e ∈ records size os, e.length = size)
  (hsize : 0 < size) (hroom : Room size os.length)

include h hos hsize hroom

theorem Filled.slots_records : slots size (x.hashes.length/size) x.hashes = records size os ++
    List.replicate (vectorSize size os.length/size - os.length) (noDigest size) := by
  have hlen : (records size os).length = os.length := by simp [records]
  have hholds := hroom.holds
  rw [← hlen] at hholds
  have hfits : (vectorSize size os.length/size - os.length)*size ≤
      vectorSize size os.length - os.length*size := by
    rw [Nat.sub_mul]
    have hdiv := Nat.div_mul_le_self (vectorSize size os.length) size
    omega
  rw [h.slots_eq hos hsize hholds,hlen,slots_zeros _ _ hfits]

theorem Filled.rest_records : x.hashes.drop (x.hashes.length/size*size) =
    List.replicate (vectorSize size os.length - vectorSize size os.length/size*size) 0 := by
  have hlen : (records size os).length = os.length := by simp [records]
  have hholds := hroom.holds
  have hle : os.length*size ≤ vectorSize size os.length/size*size :=
    Nat.mul_le_mul_right size ((Nat.le_div_iff_mul_le hsize).mpr hholds)
  rw [← hlen] at hholds
  have hflat := length_flatten_of_forall hos
  rw [hlen] at hflat
  rw [h.length hos hholds,h.hashes,hlen,List.drop_append,List.drop_of_length_le (hflat ▸ hle),
    List.nil_append,hflat,List.drop_replicate]
  congr 1
  omega

end Records

theorem sortHashes_eq_iff {size : Nat} {os os' : List (Option Str)} {x x' : HashVector}
    (h : Filled size (records size os) x) (h' : Filled size (records size os') x')
    (hos : ∀ e ∈ records size os, e.length = size) (hos' : ∀ e ∈ records size os', e.length = size)
    (hsize : 0 < size) (hroom : Room size os.length) (hroom' : Room size os'.length) :
    sortHashes size x.hashes = sortHashes size x'.hashes ↔
      vectorSize size os.length = vectorSize size os'.length ∧
        (realDigests size os).Perm (realDigests size os') := by
  have hlen : ∀ {os : List (Option Str)} {x : HashVector}, Filled size (records size os) x →
      (∀ e ∈ records size os, e.length = size) → Room size os.length →
        x.hashes.length = vectorSize size os.length := by
    intro os x h hos hroom
    have hcount : (records size os).length = os.length := by simp [records]
    have hholds := hroom.holds
    rw [← hcount] at hholds ⊢
    exact h.length hos hholds
  have hfilter : ∀ (os : List (Option Str)) (k : Nat),
      (records size os ++ List.replicate k (noDigest size)).filter (· ≠ noDigest size) =
        realDigests size os := by
    intro os k
    rw [List.filter_append,filter_records,List.filter_replicate]
    simp
  constructor
  · intro heq
    have hsame : x.hashes.length = x'.hashes.length := by
      have hlong : ∀ y, (sortHashes size y).length = y.length := fun y => length_sortHashes y
      rw [← hlong x.hashes,heq,hlong]
    have hperm : (slots size (x.hashes.length/size) x.hashes).Perm
        (slots size (x'.hashes.length/size) x'.hashes) := by
      have hsorted := congrArg (fun s => slots size (s.length/size) s) heq
      rw [slots_sortHashes,slots_sortHashes] at hsorted
      have hback := List.perm_insertionSort (· ≤ ·) (slots size (x'.hashes.length/size) x'.hashes)
      rw [← hsorted] at hback
      exact (List.perm_insertionSort (· ≤ ·) _).symm.trans hback
    rw [h.slots_records hos hsize hroom,h'.slots_records hos' hsize hroom'] at hperm
    rw [hlen h hos hroom,hlen h' hos' hroom'] at hsame
    refine ⟨hsame,?_⟩
    have hreal := hperm.filter (· ≠ noDigest size)
    rwa [hfilter,hfilter] at hreal
  · rintro ⟨hsame,hreal⟩
    have hperm : (slots size (x.hashes.length/size) x.hashes).Perm
        (slots size (x'.hashes.length/size) x'.hashes) := by
      refine perm_of_filter_ne (noDigest size) ?_ ?_
      · rw [length_slots,length_slots,hlen h hos hroom,hlen h' hos' hroom',hsame]
      · rw [h.slots_records hos hsize hroom,h'.slots_records hos' hsize hroom',hfilter,hfilter]
        exact hreal
    have hsorted : (slots size (x.hashes.length/size) x.hashes).insertionSort (· ≤ ·) =
        (slots size (x'.hashes.length/size) x'.hashes).insertionSort (· ≤ ·) := by
      refine List.Perm.eq_of_pairwise' (List.pairwise_insertionSort _ _)
        (List.pairwise_insertionSort _ _) ?_
      exact (List.perm_insertionSort _ _).trans (hperm.trans (List.perm_insertionSort _ _).symm)
    rw [sortHashes,sortHashes,hsorted,h.rest_records hos hsize hroom,
      h'.rest_records hos' hsize hroom',hsame]

section Apart

variable {h : HashFunctions} {v v' : View} {filePath filePath' : Str} {algo dirHashOpts dirHashOpts' : Byte}
  {it it' : readdirIterator}

/-- The vectors of two directories are alike just when they are of one length and there are the same
digests, those of zeros apart. -/
theorem dirStream_eq_iff (halgo : algo.toNat < rh_hash_maxAlgoIndex)
    (hit : dirIterator v filePath dirHashOpts = some it) (hnames : withNames dirHashOpts = false)
    (hit' : dirIterator v' filePath' dirHashOpts' = some it') (hnames' : withNames dirHashOpts' = false)
    (hroom : Room (hashSize algo) (filesHashed v dirHashOpts it).length)
    (hroom' : Room (hashSize algo) (filesHashed v' dirHashOpts' it').length) :
    dirStream h v filePath algo dirHashOpts = dirStream h v' filePath' algo dirHashOpts' ↔
      vectorSize (hashSize algo) (filesHashed v dirHashOpts it).length =
          vectorSize (hashSize algo) (filesHashed v' dirHashOpts' it').length ∧
        (realDigests (hashSize algo) (fileDigests h v filePath algo dirHashOpts it)).Perm
          (realDigests (hashSize algo) (fileDigests h v' filePath' algo dirHashOpts' it')) := by
  obtain ⟨x,hfilled,hx⟩ := contents_records h hit hnames halgo hroom
  obtain ⟨x',hfilled',hx'⟩ := contents_records h hit' hnames' halgo hroom'
  have hcount : (fileDigests h v filePath algo dirHashOpts it).length =
      (filesHashed v dirHashOpts it).length := length_fileDigests
  have hcount' : (fileDigests h v' filePath' algo dirHashOpts' it').length =
      (filesHashed v' dirHashOpts' it').length := length_fileDigests
  rw [← hcount] at hroom ⊢
  rw [← hcount'] at hroom' ⊢
  rw [hx,hx',Option.some_inj,Option.some_inj]
  exact sortHashes_eq_iff hfilled hfilled' (length_of_mem_records halgo) (length_of_mem_records halgo)
    (hashSize_pos halgo) hroom hroom'

/-- There is a difference, but only in how many files give no digest and how many give zeros, and it
does not make one vector longer. -/
def DifferInEmpty (size : Nat) (os os' : List (Option Str)) : Prop :=
  (os.count none ≠ os'.count none ∨
    os.count (some (noDigest size)) ≠ os'.count (some (noDigest size))) ∧
  (realDigests size os).Perm (realDigests size os') ∧
  vectorSize size os.length = vectorSize size os'.length

theorem contents_tell_iff (halgo : algo.toNat < rh_hash_maxAlgoIndex)
    (hit : dirIterator v filePath dirHashOpts = some it) (hnames : withNames dirHashOpts = false)
    (hit' : dirIterator v' filePath' dirHashOpts' = some it') (hnames' : withNames dirHashOpts' = false)
    (hroom : Room (hashSize algo) (filesHashed v dirHashOpts it).length)
    (hroom' : Room (hashSize algo) (filesHashed v' dirHashOpts' it').length) :
    (dirStream h v filePath algo dirHashOpts = dirStream h v' filePath' algo dirHashOpts' →
        (fileDigests h v filePath algo dirHashOpts it).Perm
          (fileDigests h v' filePath' algo dirHashOpts' it')) ↔
      ¬ DifferInEmpty (hashSize algo) (fileDigests h v filePath algo dirHashOpts it)
        (fileDigests h v' filePath' algo dirHashOpts' it') := by
  rw [dirStream_eq_iff halgo hit hnames hit' hnames' hroom hroom',
    perm_digests_iff (hashSize algo),DifferInEmpty,length_fileDigests,length_fileDigests]
  constructor
  · intro hperm hdiffer
    obtain ⟨hcounts,hreal,hsame⟩ := hdiffer
    have htold := hperm ⟨hsame,hreal⟩
    exact hcounts.elim (fun hne => hne htold.2.1) fun hne => hne htold.2.2
  · intro hno hboth
    obtain ⟨hsame,hreal⟩ := hboth
    refine ⟨hreal,?_,?_⟩
    · by_contra hne
      exact hno ⟨.inl hne,hreal,hsame⟩
    · by_contra hne
      exact hno ⟨.inr hne,hreal,hsame⟩

/-- One letter once and twice are told apart. -/
theorem contents_tell_twice :
    ¬ (dirStream crcHashes (flatView 1 (some [120])) flatRoot 0 0 =
        dirStream crcHashes (flatView 2 (some [120])) flatRoot 0 0 ∧
      ¬ (fileDigests crcHashes (flatView 1 (some [120])) flatRoot 0 0 (flatIterator 1)).Perm
        (fileDigests crcHashes (flatView 2 (some [120])) flatRoot 0 0 (flatIterator 2))) := by
  have hcount : realDigests 4
      (fileDigests crcHashes (flatView 1 (some [120])) flatRoot 0 0 (flatIterator 1)) ≠ [] := by
    decide +kernel
  refine fun halike => halike.2 ((contents_tell_iff (by decide) (flatView_iterator 1 _) (by decide)
    (flatView_iterator 2 _) (by decide) ?_ ?_).mpr (fun hdiffer => ?_) halike.1)
  · rw [flatView_count]
    decide
  · rw [flatView_count]
    decide
  · have hlen := hdiffer.2.1.length_eq
    revert hlen
    decide +kernel

/-- A file that cannot be opened, and one that is empty where zeros are the checksum of nothing, are
like no file. -/
theorem contents_empty_place :
    (dirStream crcHashes (flatView 1 none) flatRoot 0 0 =
        dirStream crcHashes (flatView 0 none) flatRoot 0 0 ∧
      ¬ (fileDigests crcHashes (flatView 1 none) flatRoot 0 0 (flatIterator 1)).Perm
        (fileDigests crcHashes (flatView 0 none) flatRoot 0 0 (flatIterator 0))) ∧
    dirStream crcHashes (flatView 1 (some [])) flatRoot 0 0 =
        dirStream crcHashes (flatView 0 none) flatRoot 0 0 ∧
      ¬ (fileDigests crcHashes (flatView 1 (some [])) flatRoot 0 0 (flatIterator 1)).Perm
        (fileDigests crcHashes (flatView 0 none) flatRoot 0 0 (flatIterator 0)) := by
  have hunread : fileDigests crcHashes (flatView 1 none) flatRoot 0 0 (flatIterator 1) = [none] := by
    decide +kernel
  have hzeros : fileDigests crcHashes (flatView 1 (some [])) flatRoot 0 0 (flatIterator 1) =
      [some [0,0,0,0]] := by decide +kernel
  have hnothing : fileDigests crcHashes (flatView 0 none) flatRoot 0 0 (flatIterator 0) = [] := by
    decide +kernel
  have hroom : ∀ n ≤ 1, ∀ content,
      Room (hashSize 0) (filesHashed (flatView n content) 0 (flatIterator n)).length := by
    intro n hn content
    rw [flatView_count]
    exact (Nat.mul_le_mul_right _ hn).trans (by decide)
  have halike : ∀ content,
      realDigests (hashSize 0)
        (fileDigests crcHashes (flatView 1 content) flatRoot 0 0 (flatIterator 1)) = [] →
      dirStream crcHashes (flatView 1 content) flatRoot 0 0 =
        dirStream crcHashes (flatView 0 none) flatRoot 0 0 := by
    intro content hnone
    refine (dirStream_eq_iff (by decide) (flatView_iterator 1 _) (by decide) (flatView_iterator 0 _)
      (by decide) (hroom 1 (by decide) _) (hroom 0 (by decide) _)).mpr ?_
    rw [flatView_count,flatView_count,hnone,hnothing]
    exact ⟨by decide,by decide⟩
  refine ⟨⟨halike none (by rw [hunread]; decide),?_⟩,halike (some []) (by rw [hzeros]; decide),?_⟩
  · rw [hunread,hnothing]
    decide
  · rw [hzeros,hnothing]
    decide

end Apart

end RootHelper
