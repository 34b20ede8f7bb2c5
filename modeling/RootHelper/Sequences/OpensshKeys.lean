import RootHelper.Posix.Paths
import RootHelper.Sequences.Base64

/-!
The openssh-key-v1 format: a private key of Ed25519 without a passphrase, in lines of base64 between two
boundaries.
-/

set_option autoImplicit false

namespace OpensshKeys
open Posix Encodings

def readUint32 : Str → Option (Nat × Str)
  | a :: b :: c :: d :: rest => some (a.toNat * 2^24 + b.toNat * 2^16 + c.toNat * 2^8 + d.toNat,rest)
  | _ => none

def readString (s : Str) : Option (Str × Str) := do
  let (n,rest) ← readUint32 s
  if n ≤ rest.length then some (rest.take n,rest.drop n) else none

def uint32 (n : Nat) : Str :=
  [UInt8.ofNat (n / 2^24),UInt8.ofNat (n / 2^16),UInt8.ofNat (n / 2^8),UInt8.ofNat n]

def string (s : Str) : Str := uint32 s.length ++ s

theorem readUint32_uint32 {n : Nat} (h : n < 2^32) (rest : Str) :
    readUint32 (uint32 n ++ rest) = some (n,rest) := by
  have hsum : (UInt8.ofNat (n / 2^24)).toNat * 2^24 + (UInt8.ofNat (n / 2^16)).toNat * 2^16 +
      (UInt8.ofNat (n / 2^8)).toNat * 2^8 + (UInt8.ofNat n).toNat = n := by
    simp only [UInt8.toNat_ofNat']
    omega
  simp only [uint32,List.cons_append,List.nil_append,readUint32,hsum]

theorem readString_string {s : Str} (h : s.length < 2^32) (rest : Str) :
    readString (string s ++ rest) = some (s,rest) := by
  rw [string,List.append_assoc,readString,readUint32_uint32 h]
  simp

def keyType : Str := text ['s','s','h','-','e','d','2','5','5','1','9']
def magic : Str := text ['o','p','e','n','s','s','h','-','k','e','y','-','v','1'] ++ [0]
def noneName : Str := text ['n','o','n','e']

def padding (n : Nat) : Str := (List.range n).map fun i => UInt8.ofNat (i+1)

structure Ed25519Key where
  publicKey : Str
  seed : Str
  comment : Str
  deriving DecidableEq, Repr

def readPublicKey (s : Str) : Option Str := do
  let (name,s) ← readString s
  let (publicKey,s) ← readString s
  if name = keyType ∧ publicKey.length = 32 ∧ s = [] then some publicKey else none

/-- Two equal check values, the key and the comment, filled to a multiple of eight bytes. -/
def readPrivateSection (s : Str) : Option Ed25519Key := do
  let length := s.length
  let (check₁,s) ← readUint32 s
  let (check₂,s) ← readUint32 s
  let (name,s) ← readString s
  let (publicKey,s) ← readString s
  let (privateKey,s) ← readString s
  let (comment,s) ← readString s
  if length % 8 = 0 ∧ check₁ = check₂ ∧ name = keyType ∧ publicKey.length = 32 ∧
      privateKey.length = 64 ∧ privateKey.drop 32 = publicKey ∧ s.length < 8 ∧ s = padding s.length then
    some ⟨publicKey,privateKey.take 32,comment⟩
  else none

/-- No cipher and one key, whose public part stands in front. -/
def readBlob (s : Str) : Option Ed25519Key := do
  let (cipher,rest) ← readString (s.drop magic.length)
  let (kdf,rest) ← readString rest
  let (options,rest) ← readString rest
  let (number,rest) ← readUint32 rest
  let (publicPart,rest) ← readString rest
  let (privatePart,rest) ← readString rest
  let publicKey ← readPublicKey publicPart
  let key ← readPrivateSection privatePart
  if s.take magic.length = magic ∧ cipher = noneName ∧ kdf = noneName ∧ options = [] ∧ number = 1 ∧
      rest = [] ∧ key.publicKey = publicKey then
    some key
  else none

section Readers

variable {s s₁ s₂ s₃ s₄ s₅ s₆ name publicKey privateKey comment : Str}

theorem readPublicKey_of (hname : readString s = some (name,s₁))
    (hkey : readString s₁ = some (publicKey,s₂)) (h : name = keyType ∧ publicKey.length = 32 ∧ s₂ = []) :
    readPublicKey s = some publicKey := by
  simp only [readPublicKey,hname,hkey,Option.bind_eq_bind,Option.bind_some,if_pos h]

theorem readPrivateSection_of {check₁ check₂ : Nat} (h₁ : readUint32 s = some (check₁,s₁))
    (h₂ : readUint32 s₁ = some (check₂,s₂)) (hname : readString s₂ = some (name,s₃))
    (hpublic : readString s₃ = some (publicKey,s₄)) (hprivate : readString s₄ = some (privateKey,s₅))
    (hcomment : readString s₅ = some (comment,s₆))
    (h : s.length % 8 = 0 ∧ check₁ = check₂ ∧ name = keyType ∧ publicKey.length = 32 ∧
      privateKey.length = 64 ∧ privateKey.drop 32 = publicKey ∧ s₆.length < 8 ∧
      s₆ = padding s₆.length) :
    readPrivateSection s = some ⟨publicKey,privateKey.take 32,comment⟩ := by
  simp only [readPrivateSection,h₁,h₂,hname,hpublic,hprivate,hcomment,Option.bind_eq_bind,
    Option.bind_some,if_pos h]

theorem readBlob_of {cipher kdf options publicPart privatePart : Str} {number : Nat}
    {key : Ed25519Key} (hcipher : readString (s.drop magic.length) = some (cipher,s₁))
    (hkdf : readString s₁ = some (kdf,s₂)) (hoptions : readString s₂ = some (options,s₃))
    (hnumber : readUint32 s₃ = some (number,s₄)) (hpublic : readString s₄ = some (publicPart,s₅))
    (hprivate : readString s₅ = some (privatePart,s₆))
    (hpublicKey : readPublicKey publicPart = some publicKey)
    (hkey : readPrivateSection privatePart = some key)
    (h : s.take magic.length = magic ∧ cipher = noneName ∧ kdf = noneName ∧ options = [] ∧ number = 1 ∧
      s₆ = [] ∧ key.publicKey = publicKey) :
    readBlob s = some key := by
  simp only [readBlob,hcipher,hkdf,hoptions,hnumber,hpublic,hprivate,hpublicKey,hkey,
    Option.bind_eq_bind,Option.bind_some,if_pos h]

end Readers

def beginLine : Str :=
  text ['-','-','-','-','-','B','E','G','I','N',' ','O','P','E','N','S','S','H',' ',
    'P','R','I','V','A','T','E',' ','K','E','Y','-','-','-','-','-']

def endLine : Str :=
  text ['-','-','-','-','-','E','N','D',' ','O','P','E','N','S','S','H',' ',
    'P','R','I','V','A','T','E',' ','K','E','Y','-','-','-','-','-']

/-- The lines of a text in which every line is ended; `line` is what has been read of one. -/
def readLines : Str → Str → Option (List Str)
  | line, [] => if line = [] then some [] else none
  | line, b :: s => if b = 10 then (readLines [] s).map (line :: ·) else readLines (line ++ [b]) s

def ended (lines : List Str) : Str := (lines.map (· ++ [10])).flatten

/-- Lines of base64 have 70 letters at most. -/
def readText (s : Str) : Option Ed25519Key := do
  let lines ← readLines [] s
  let body := lines.tail.dropLast
  if lines = beginLine :: body ++ [endLine] ∧ ∀ line ∈ body, line.length ≤ 70 then do
    let blob ← decodeBase64 body.flatten
    readBlob blob
  else none

theorem readLines_line {l : Str} (hl : (10 : Byte) ∉ l) (line s : Str) :
    readLines line (l ++ 10 :: s) = (readLines [] s).map ((line ++ l) :: ·) := by
  induction l generalizing line with
  | nil => simp [readLines]
  | cons b l ih =>
    rw [List.mem_cons,not_or] at hl
    rw [List.cons_append,readLines,if_neg (Ne.symm hl.1),ih hl.2]
    simp

theorem readLines_ended {lines : List Str} (h : ∀ l ∈ lines, (10 : Byte) ∉ l) :
    readLines [] (ended lines) = some lines := by
  induction lines with
  | nil => rfl
  | cons l lines ih =>
    have hcons : ended (l :: lines) = l ++ 10 :: ended lines := by simp [ended]
    rw [hcons,readLines_line (h l (by simp)),ih fun l' hl' => h l' (by simp [hl'])]
    rfl

section Written

variable {publicKey seed comment check : Str} {blob : Str}

def publicPart (publicKey : Str) : Str := string keyType ++ string publicKey

def privateFields (check publicKey seed comment : Str) : Str :=
  check ++ check ++ string keyType ++ string publicKey ++ string (seed ++ publicKey) ++ string comment

def wholeBlob (publicKey privateSection : Str) : Str :=
  magic ++ string noneName ++ string noneName ++ string [] ++ uint32 1 ++ string (publicPart publicKey) ++
    string privateSection

theorem length_uint32 (n : Nat) : (uint32 n).length = 4 := rfl

theorem length_string (s : Str) : (string s).length = 4 + s.length := by
  rw [string,List.length_append,length_uint32]

theorem length_keyType : keyType.length = 11 := by decide

theorem length_noneName : noneName.length = 4 := by decide

theorem keyType_short : keyType.length < 2^32 := by
  have h := length_keyType
  omega

theorem noneName_short : noneName.length < 2^32 := by
  have h := length_noneName
  omega

theorem readPublicKey_publicPart (h : publicKey.length = 32) :
    readPublicKey (publicPart publicKey) = some publicKey := by
  have hlast := readString_string (s := publicKey) (by omega) []
  rw [List.append_nil] at hlast
  exact readPublicKey_of (readString_string keyType_short _) hlast ⟨rfl,h,rfl⟩

theorem length_privateFields (comment : Str) (hcheck : check.length = 4) (hpublic : publicKey.length = 32)
    (hseed : seed.length = 32) :
    (privateFields check publicKey seed comment).length = 131 + comment.length := by
  simp only [privateFields,List.length_append,length_string,hcheck,hpublic,hseed,length_keyType]
  omega

theorem readPrivateSection_privateFields {n : Nat} (hcheck : check.length = 4)
    (hpublic : publicKey.length = 32) (hseed : seed.length = 32) (hcomment : comment.length < 2^32)
    (hn : n < 8) (height : (131 + comment.length + n) % 8 = 0) :
    readPrivateSection (privateFields check publicKey seed comment ++ padding n) =
      some ⟨publicKey,seed,comment⟩ := by
  obtain ⟨a,b,c,d,rfl⟩ : ∃ a b c d, check = [a,b,c,d] := by
    match check, hcheck with
    | [a,b,c,d], _ => exact ⟨a,b,c,d,rfl⟩
  have hlength := length_privateFields comment hcheck hpublic hseed
  have hpadding : (padding n).length = n := by simp [padding]
  have hdrop : (seed ++ publicKey).drop 32 = publicKey := List.drop_left' hseed
  have htake : (seed ++ publicKey).take 32 = seed := List.take_left' hseed
  have hkey : (seed ++ publicKey).length = 64 := by rw [List.length_append,hseed,hpublic]
  have hwhole : (privateFields [a,b,c,d] publicKey seed comment ++ padding n).length % 8 = 0 := by
    rw [List.length_append,hlength,hpadding,height]
  have hread := readPrivateSection_of
    (s := privateFields [a,b,c,d] publicKey seed comment ++ padding n)
    (by simp only [privateFields,List.cons_append,List.nil_append,List.append_assoc,readUint32]; rfl) rfl
    (readString_string keyType_short _) (readString_string (s := publicKey) (by omega) _)
    (readString_string (s := seed ++ publicKey) (by omega) _) (readString_string hcomment (padding n))
    ⟨hwhole,rfl,rfl,hpublic,hkey,hdrop,by omega,by rw [hpadding]⟩
  rw [hread,htake]

theorem readBlob_wholeBlob {privateSection : Str} (hpublic : publicKey.length = 32)
    (hlength : privateSection.length < 2^32)
    (hprivate : readPrivateSection privateSection = some ⟨publicKey,seed,comment⟩) :
    readBlob (wholeBlob publicKey privateSection) = some ⟨publicKey,seed,comment⟩ := by
  have hpart : (publicPart publicKey).length < 2^32 := by
    rw [publicPart,List.length_append,length_string,length_string,length_keyType,hpublic]
    omega
  have hempty : ([] : Str).length < 2^32 := by
    rw [List.length_nil]
    omega
  have hlast := readString_string hlength []
  rw [List.append_nil] at hlast
  have hassoc : wholeBlob publicKey privateSection = magic ++ (string noneName ++ (string noneName ++
      (string [] ++ (uint32 1 ++ (string (publicPart publicKey) ++ string privateSection))))) := by
    simp only [wholeBlob,List.append_assoc]
  rw [hassoc]
  refine readBlob_of ?_ (readString_string noneName_short _) (readString_string hempty _)
    (readUint32_uint32 (by omega) _) (readString_string hpart _) hlast
    (readPublicKey_publicPart hpublic) hprivate ⟨List.take_left' rfl,rfl,rfl,rfl,rfl,rfl,rfl⟩
  rw [List.drop_left' rfl]
  exact readString_string noneName_short _

theorem readText_ended {body : List Str} {key : Ed25519Key} (hlines : ∀ l ∈ body, (10 : Byte) ∉ l)
    (hshort : ∀ l ∈ body, l.length ≤ 70) (hblob : decodeBase64 body.flatten = some blob)
    (hkey : readBlob blob = some key) :
    readText (ended (beginLine :: body ++ [endLine])) = some key := by
  have hall : ∀ l ∈ beginLine :: body ++ [endLine], (10 : Byte) ∉ l := by
    intro l hl
    simp only [List.cons_append,List.mem_cons,List.mem_append,List.not_mem_nil,or_false] at hl
    rcases hl with rfl | hl | rfl
    · decide
    · exact hlines l hl
    · decide
  have hbody : (beginLine :: body ++ [endLine]).tail.dropLast = body := by simp
  simp only [readText,readLines_ended hall,Option.bind_eq_bind,Option.bind_some]
  rw [hbody,if_pos ⟨rfl,hshort⟩,hblob]
  exact hkey

end Written

end OpensshKeys
