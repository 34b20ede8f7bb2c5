import RootHelper.Sequences.OpensshKeys

/-!
The key pairs of Ed25519 that the helper generates: the private key is written as a text for OpenSSH. The
lengths in front of the fields are partly constants and partly computed from the comment.
-/

set_option autoImplicit false

namespace RootHelper
open Posix Encodings OpensshKeys

def uint32AsBigEndian (num : UInt32) : Str :=
  ([3,2,1,0] : List UInt32).map fun i => (num >>> (8 * i)).toUInt8

def innerPrivkHeader_0 : Str :=
  text ['o','p','e','n','s','s','h','-','k','e','y','-','v','1'] ++ [0,0,0,0,4] ++
    text ['n','o','n','e'] ++ [0,0,0,4] ++ text ['n','o','n','e'] ++ [0,0,0,0,0,0,0,1,0,0,0,0x33]

def innerPrivkHeader_1 : Str :=
  [0,0,0,0x0B] ++ text ['s','s','h','-','e','d','2','5','5','1','9'] ++ [0,0,0] ++ text [' ']

def innerPrivkHeader_2 : Str := [0,0,0] ++ text ['@']

def finalInnerHeader (size : UInt64) : Str :=
  let xx := (size + 3) &&& 7
  if xx = 0 then [] else ([1,2,3,4,5,6,7] : Str).take (8 - xx).toNat

def paddedCommentSize (size : UInt64) : UInt32 := (131 + size + (-(size + 3) &&& 7)).toUInt32

def beforeB64 (prvKeyOnly pubk checkstr comment : Str) : Str :=
  let size := UInt64.ofNat comment.length
  innerPrivkHeader_0 ++ innerPrivkHeader_1 ++ pubk ++ uint32AsBigEndian (paddedCommentSize size) ++
    checkstr ++ checkstr ++ innerPrivkHeader_1 ++ pubk ++ innerPrivkHeader_2 ++ prvKeyOnly ++ pubk ++
    uint32AsBigEndian size.toUInt32 ++ comment ++ finalInnerHeader size

/-- The counter is an `int`: nothing when it would pass its largest value. -/
def withNewlines : Nat → Str → Option Str
  | _, [] => some []
  | i, c :: s => do
    let after ← if i + 1 < 2^31 then withNewlines (i+1) s else none
    some (c :: (if i ≠ 0 ∧ i % 70 = 69 then [10] else []) ++ after)

/-- The last byte is read, which an empty text does not have. -/
def getBase64StringWithNewlines (s : Str) : Option Str := do
  let s1 ← withNewlines 0 s
  let last ← s1.getLast?
  some (if last = 10 then s1 else s1 ++ [10])

def privkHeader : Str :=
  text ['-','-','-','-','-','B','E','G','I','N',' ','O','P','E','N','S','S','H',' ',
    'P','R','I','V','A','T','E',' ','K','E','Y','-','-','-','-','-','\n']

def privkFooter : Str :=
  text ['-','-','-','-','-','E','N','D',' ','O','P','E','N','S','S','H',' ',
    'P','R','I','V','A','T','E',' ','K','E','Y','-','-','-','-','-','\n']

inductive KeygenError where
  | keysSizeMismatch
  | commentContainsNewlines
  deriving DecidableEq, Repr

def sshpubkey (pubk comment : Str) : Str :=
  text ['s','s','h','-','e','d','2','5','5','1','9',' '] ++ encodeBase64 (innerPrivkHeader_1 ++ pubk) ++
    text [' '] ++ comment ++ text ['\n']

/-- The private and the public text, for the keys and the check value that the generator gives. -/
def generate_ed25519_keypair (prvk pubk checkstr comment : Str) :
    Option (Except KeygenError (Str × Str)) :=
  if prvk.length ≠ 64 ∨ pubk.length ≠ 32 then some (throw .keysSizeMismatch)
  else if 10 ∈ comment then some (throw .commentContainsNewlines)
  else do
    let afterB64 := encodeBase64 (beforeB64 (prvk.take 32) pubk checkstr comment)
    let splittedB64Content ← getBase64StringWithNewlines afterB64
    some (pure (privkHeader ++ splittedB64Content ++ privkFooter,sshpubkey pubk comment))

theorem uint32AsBigEndian_eq (num : UInt32) : uint32AsBigEndian num = uint32 num.toNat := by
  have hnum := num.toNat_lt
  have hbyte : ∀ k : UInt32, k.toNat < 32 →
      (num >>> k).toUInt8 = UInt8.ofNat (num.toNat / 2^k.toNat) := by
    intro k hk
    apply UInt8.toNat_inj.mp
    rw [UInt32.toNat_toUInt8,UInt32.toNat_shiftRight,UInt8.toNat_ofNat',Nat.mod_eq_of_lt hk,
      Nat.shiftRight_eq_div_pow]
  have h0 : (num >>> 0).toUInt8 = UInt8.ofNat num.toNat := by simp
  simp only [uint32AsBigEndian,uint32,List.map_cons,List.map_nil]
  exact congr (congrArg _ (hbyte 24 (by decide))) (congr (congrArg _ (hbyte 16 (by decide)))
    (congr (congrArg _ (hbyte 8 (by decide))) (congrArg (· :: []) h0)))

def paddingSize (n : Nat) : Nat := (8 - (n + 3) % 8) % 8

section Comments

variable {n : Nat}

theorem toNat_ofNat_comment (h : n < 2^31) : (UInt64.ofNat n).toNat = n :=
  UInt64.toNat_ofNat_of_lt' (h.trans (by decide))

theorem and_seven_toNat (x : UInt64) : (x &&& 7).toNat = x.toNat % 8 := by
  rw [UInt64.toNat_and]
  exact Nat.and_two_pow_sub_one_eq_mod _ 3

theorem paddedCommentSize_toNat (h : n < 2^31) :
    (paddedCommentSize (UInt64.ofNat n)).toNat = 131 + n + paddingSize n := by
  have hn := toNat_ofNat_comment h
  simp only [paddedCommentSize,UInt64.toNat_toUInt32,UInt64.toNat_add,and_seven_toNat,
    UInt64.toNat_neg,hn,UInt64.toNat_ofNat,paddingSize,UInt64.size]
  omega

theorem finalInnerHeader_eq (h : n < 2^31) :
    finalInnerHeader (UInt64.ofNat n) = padding (paddingSize n) := by
  have hn := toNat_ofNat_comment h
  have hmask : ((UInt64.ofNat n + 3) &&& 7).toNat = (n + 3) % 8 := by
    have hthree : (3 : UInt64).toNat = 3 := rfl
    rw [and_seven_toNat,UInt64.toNat_add,hn,hthree]
    omega
  have hall : ∀ x < 8, (if x = 0 then [] else ([1,2,3,4,5,6,7] : Str).take (8 - x)) =
      padding ((8 - x) % 8) := by decide
  rw [paddingSize,← hall _ (Nat.mod_lt _ (by decide)),finalInnerHeader]
  by_cases hx : (n + 3) % 8 = 0
  · have hzero : (UInt64.ofNat n + 3) &&& 7 = 0 := UInt64.toNat_inj.mp (hmask.trans hx)
    rw [if_pos hzero,if_pos hx]
  · have hne : (UInt64.ofNat n + 3) &&& 7 ≠ 0 := fun h0 => hx (by rw [← hmask,h0]; rfl)
    have hsub : (8 - ((UInt64.ofNat n + 3) &&& 7)).toNat = 8 - (n + 3) % 8 := by
      have height : (8 : UInt64).toNat = 8 := rfl
      rw [UInt64.toNat_sub,hmask,height]
      omega
    rw [if_neg hne,if_neg hx,hsub]

theorem paddingSize_lt (n : Nat) : paddingSize n < 8 := Nat.mod_lt _ (by decide)

theorem eight_dvd (n : Nat) : (131 + n + paddingSize n) % 8 = 0 := by
  rw [paddingSize]
  omega

end Comments

section Fields

variable {seed pubk checkstr comment : Str}

def privateSection (seed pubk checkstr comment : Str) : Str :=
  privateFields checkstr pubk seed comment ++ padding (paddingSize comment.length)

theorem length_privateSection (hseed : seed.length = 32) (hpubk : pubk.length = 32)
    (hcheck : checkstr.length = 4) :
    (privateSection seed pubk checkstr comment).length =
      131 + comment.length + paddingSize comment.length := by
  rw [privateSection,List.length_append,length_privateFields comment hcheck hpubk hseed]
  simp [padding]

theorem beforeB64_eq (hseed : seed.length = 32) (hpubk : pubk.length = 32)
    (hcheck : checkstr.length = 4) (hcomment : comment.length < 2^31) :
    beforeB64 seed pubk checkstr comment = wholeBlob pubk (privateSection seed pubk checkstr comment) := by
  have h0 : innerPrivkHeader_0 =
      magic ++ string noneName ++ string noneName ++ string [] ++ uint32 1 ++ uint32 51 := by decide
  have h1 : innerPrivkHeader_1 = string keyType ++ uint32 32 := by decide
  have h2 : innerPrivkHeader_2 = uint32 64 := by decide
  have hpart : (publicPart pubk).length = 51 := by
    rw [publicPart,List.length_append,length_string,length_string,length_keyType,hpubk]
  have hkey : (seed ++ pubk).length = 64 := by rw [List.length_append,hseed,hpubk]
  have hsize : (UInt64.ofNat comment.length).toUInt32.toNat = comment.length := by
    rw [UInt64.toNat_toUInt32,toNat_ofNat_comment hcomment]
    omega
  simp only [beforeB64,uint32AsBigEndian_eq,paddedCommentSize_toNat hcomment,
    finalInnerHeader_eq hcomment,hsize,h0,h1,h2]
  rw [wholeBlob,string.eq_1 (publicPart pubk),hpart,string.eq_1 (privateSection _ _ _ _),
    length_privateSection hseed hpubk hcheck]
  simp only [privateSection,privateFields,publicPart,string.eq_1 pubk,hpubk,string.eq_1 (seed ++ pubk),
    hkey,string.eq_1 comment,List.append_assoc]

end Fields

/-- What the loop leaves is finished by a newline. -/
def finished (s1 : Str) : Str := if s1.getLast? = some 10 then s1 else s1 ++ [10]

theorem withNewlines_overflow {i : Nat} {s : Str} (hs : s ≠ []) (h : 2^31 ≤ i + s.length) :
    withNewlines i s = none := by
  induction s generalizing i with
  | nil => exact absurd rfl hs
  | cons c s ih =>
    rw [List.length_cons] at h
    rw [withNewlines]
    by_cases hi : i + 1 < 2^31
    · have hs' : s ≠ [] := by
        rintro rfl
        rw [List.length_nil] at h
        omega
      rw [if_pos hi,ih hs' (by omega)]
      rfl
    · rw [if_neg hi]
      rfl

theorem withNewlines_cons {i : Nat} (hi : i + 1 < 2^31) (c : Byte) (s : Str) :
    withNewlines i (c :: s) = (withNewlines (i+1) s).map
      fun after => c :: (if i ≠ 0 ∧ i % 70 = 69 then [10] else []) ++ after := by
  rw [withNewlines,if_pos hi,Option.map_eq_bind]
  rfl

/-- The line that is open at `i` is filled up to 70 bytes, the following ones have so many. -/
theorem withNewlines_lines {i : Nat} {s : Str} (hs : s ≠ []) (h : i + s.length < 2^31)
    (hnewline : (10 : Byte) ∉ s) :
    ∃ s1 l lines, withNewlines i s = some s1 ∧ s1 ≠ [] ∧ finished s1 = ended (l :: lines) ∧
      (l :: lines).flatten = s ∧ i % 70 + l.length ≤ 70 ∧ ∀ l' ∈ lines, l'.length ≤ 70 := by
  induction s generalizing i with
  | nil => exact absurd rfl hs
  | cons c s ih =>
    rw [List.length_cons] at h
    rw [List.mem_cons,not_or] at hnewline
    have hi : i + 1 < 2^31 := by omega
    have hc : c ≠ 10 := Ne.symm hnewline.1
    have hi0 : i % 70 = 69 → i ≠ 0 := by omega
    by_cases hs' : s = []
    · subst hs'
      by_cases hend : i % 70 = 69
      · refine ⟨[c,10],[c],[],?_,by simp,by simp [finished,ended],by simp,?_,by simp⟩
        · rw [withNewlines_cons hi,if_pos ⟨hi0 hend,hend⟩]
          rfl
        · simp [hend]
      · refine ⟨[c],[c],[],?_,by simp,by simp [finished,ended,hc],by simp,?_,by simp⟩
        · rw [withNewlines_cons hi,if_neg fun hno => hend hno.2]
          rfl
        · simp only [List.length_singleton]
          omega
    · obtain ⟨s1,l,lines,hrun,hne,hfinished,hflat,hlength,hshort⟩ :=
        ih hs' (i := i+1) (by omega) hnewline.2
      obtain ⟨last,hlast⟩ := Option.isSome_iff_exists.mp (List.getLast?_isSome.mpr hne)
      have hgrow : ∀ before : Str, finished (before ++ s1) = before ++ finished s1 := by
        intro before
        simp only [finished,List.getLast?_append,hlast,Option.some_or]
        split <;> simp
      by_cases hend : i % 70 = 69
      · refine ⟨[c,10] ++ s1,[c],l :: lines,?_,by simp,?_,by simp [← hflat],by simp [hend],?_⟩
        · rw [withNewlines_cons hi,if_pos ⟨hi0 hend,hend⟩,hrun]
          rfl
        · rw [hgrow,hfinished]
          simp [ended]
        · intro l' hl'
          rcases List.mem_cons.mp hl' with rfl | hl'
          · omega
          · exact hshort l' hl'
      · refine ⟨[c] ++ s1,c :: l,lines,?_,by simp,?_,by simp [← hflat],?_,hshort⟩
        · rw [withNewlines_cons hi,if_neg fun hno => hend hno.2,hrun]
          rfl
        · rw [hgrow,hfinished]
          simp [ended]
        · rw [List.length_cons]
          omega

theorem getBase64StringWithNewlines_overflow {s : Str} (h : 2^31 ≤ s.length) :
    getBase64StringWithNewlines s = none := by
  have hs : s ≠ [] := by
    rintro rfl
    rw [List.length_nil] at h
    omega
  rw [getBase64StringWithNewlines,withNewlines_overflow hs (by omega)]
  rfl

theorem getBase64StringWithNewlines_lines {s : Str} (hs : s ≠ []) (h : s.length < 2^31)
    (hnewline : (10 : Byte) ∉ s) :
    ∃ lines, getBase64StringWithNewlines s = some (ended lines) ∧ lines.flatten = s ∧
      ∀ l ∈ lines, l.length ≤ 70 := by
  obtain ⟨s1,l,lines,hrun,hne,hfinished,hflat,hlength,hshort⟩ :=
    withNewlines_lines hs (i := 0) (by omega) hnewline
  obtain ⟨last,hlast⟩ := Option.isSome_iff_exists.mp (List.getLast?_isSome.mpr hne)
  refine ⟨l :: lines,?_,hflat,?_⟩
  · rw [← hfinished]
    simp [getBase64StringWithNewlines,hrun,hlast,finished]
  · intro l' hl'
    rcases List.mem_cons.mp hl' with rfl | hl'
    · omega
    · exact hshort l' hl'

section Keys

variable {prvk pubk checkstr comment : Str}

theorem generate_eq (hprvk : prvk.length = 64) (hpubk : pubk.length = 32)
    (hnewline : (10 : Byte) ∉ comment) :
    generate_ed25519_keypair prvk pubk checkstr comment =
      (getBase64StringWithNewlines (encodeBase64 (beforeB64 (prvk.take 32) pubk checkstr comment))).map
        fun splitted => .ok (privkHeader ++ splitted ++ privkFooter,sshpubkey pubk comment) := by
  rw [generate_ed25519_keypair,if_neg (by omega),if_neg hnewline,Option.map_eq_bind]
  rfl

theorem length_afterB64 (hprvk : prvk.length = 64) (hpubk : pubk.length = 32)
    (hcheck : checkstr.length = 4) (hcomment : comment.length < 2^31) :
    (encodeBase64 (beforeB64 (prvk.take 32) pubk checkstr comment)).length =
      4 * ((231 + comment.length + paddingSize comment.length) / 3) := by
  have hseed : (prvk.take 32).length = 32 := by
    rw [List.length_take]
    omega
  have hmagic : magic.length = 15 := by decide
  rw [length_encodeBase64,beforeB64_eq hseed hpubk hcheck hcomment,wholeBlob]
  simp only [List.length_append,length_string,length_uint32,length_noneName,hmagic,publicPart,
    length_keyType,hpubk,List.length_nil,length_privateSection hseed hpubk hcheck]
  congr 2
  omega

theorem generate_overflow (hprvk : prvk.length = 64) (hpubk : pubk.length = 32)
    (hcheck : checkstr.length = 4) (hnewline : (10 : Byte) ∉ comment) (hcomment : comment.length < 2^31)
    (hlong : 1610612501 < comment.length) :
    generate_ed25519_keypair prvk pubk checkstr comment = none := by
  have hlength := length_afterB64 hprvk hpubk hcheck hcomment
  rw [generate_eq hprvk hpubk hnewline,getBase64StringWithNewlines_overflow]
  · rfl
  · rw [hlength,paddingSize]
    omega

theorem generate_reads (hprvk : prvk.length = 64) (hpubk : pubk.length = 32)
    (hcheck : checkstr.length = 4) (hnewline : (10 : Byte) ∉ comment)
    (hshort : comment.length ≤ 1610612501) :
    ∃ texts, generate_ed25519_keypair prvk pubk checkstr comment = some (.ok texts) ∧
      readText texts.1 = some ⟨pubk,prvk.take 32,comment⟩ := by
  have hseed : (prvk.take 32).length = 32 := by
    rw [List.length_take]
    omega
  have hcomment : comment.length < 2^31 := by omega
  have hpad := paddingSize_lt comment.length
  have hlength := length_afterB64 hprvk hpubk hcheck hcomment
  have hbytes := beforeB64_eq hseed hpubk hcheck hcomment
  have hne : encodeBase64 (beforeB64 (prvk.take 32) pubk checkstr comment) ≠ [] := by
    rw [← List.length_pos_iff,hlength]
    omega
  have hfits : 4 * ((231 + comment.length + paddingSize comment.length) / 3) < 2^31 := by
    rw [paddingSize]
    omega
  obtain ⟨lines,hlines,hflat,h70⟩ := getBase64StringWithNewlines_lines hne (hlength ▸ hfits)
    (newline_notMem_encodeBase64 _)
  have hnone : ∀ l ∈ lines, (10 : Byte) ∉ l := fun l hl hmem =>
    newline_notMem_encodeBase64 _ (hflat ▸ List.mem_flatten.mpr ⟨l,hl,hmem⟩)
  have hsection : readPrivateSection (privateSection (prvk.take 32) pubk checkstr comment) = some _ :=
    readPrivateSection_privateFields hcheck hpubk hseed (by omega) hpad (eight_dvd comment.length)
  have hfield : (privateSection (prvk.take 32) pubk checkstr comment).length < 2^32 := by
    rw [length_privateSection hseed hpubk hcheck]
    omega
  have hblob := readBlob_wholeBlob hpubk hfield hsection
  have htext : privkHeader ++ ended lines ++ privkFooter = ended (beginLine :: lines ++ [endLine]) := by
    have hheader : privkHeader = beginLine ++ [10] := by decide
    have hfooter : privkFooter = endLine ++ [10] := by decide
    simp only [hheader,hfooter,ended,List.cons_append,List.map_cons,List.map_append,List.map_nil,
      List.flatten_cons,List.flatten_append,List.flatten_nil,List.append_nil,List.append_assoc]
  rw [generate_eq hprvk hpubk hnewline,hlines]
  refine ⟨_,rfl,?_⟩
  rw [htext]
  exact readText_ended hnone h70 (by rw [hflat,decode_encodeBase64,hbytes]) hblob

end Keys

end RootHelper
