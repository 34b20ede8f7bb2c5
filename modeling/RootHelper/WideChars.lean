import RootHelper.ArchiveExtraction
import RootHelper.Sequences.Utf

/-!
Paths between bytes and wide characters. A `wchar_t` of four bytes loses nothing either way; one of two
bytes, on Windows, needs pairs for what lies beyond the basic plane.
-/

set_option autoImplicit false

namespace RootHelper
open Posix Encodings

/-- What one more byte makes of the code point. -/
def accumulate (codepoint : UInt32) (ch : Byte) : UInt32 :=
  if ch ≤ 0x7f then ch.toUInt32
  else if ch ≤ 0xbf then (codepoint <<< 6) ||| (ch &&& 0x3f).toUInt32
  else if ch ≤ 0xdf then (ch &&& 0x1f).toUInt32
  else if ch ≤ 0xef then (ch &&& 0x0f).toUInt32
  else (ch &&& 0x07).toUInt32

namespace Windows

def append (codepoint : UInt32) : List UInt16 :=
  if 0xffff < codepoint then
    [((0xd800 : UInt32) + (codepoint >>> 10)).toUInt16,((0xdc00 : UInt32) + (codepoint &&& 0x03ff)).toUInt16]
  else if codepoint < 0xd800 ∨ 0xe000 ≤ codepoint then [codepoint.toUInt16]
  else []

def UTF8_to_wcharLoop : UInt32 → Str → List UInt16
  | _, [] => []
  | codepoint, ch :: in_ =>
    if ch = 0 then []
    else
      let codepoint := accumulate codepoint ch
      if in_.headD 0 &&& 0xc0 ≠ 0x80 ∧ codepoint ≤ 0x10ffff then
        append codepoint ++ UTF8_to_wcharLoop codepoint in_
      else UTF8_to_wcharLoop codepoint in_

def UTF8_to_wchar (unset : UInt32) (in_ : Str) : List UInt16 := UTF8_to_wcharLoop unset in_

/-- A unit is promoted before it is compared or counted with. -/
def wchar_to_UTF8 (in_ : List UInt16) : Str := RootHelper.wchar_to_UTF8 (in_.map (·.toUInt32))

def backslash : Byte := 92

def replace (old new : Byte) (s : Str) : Str := s.map fun b => if b = old then new else b

/-- The process exits where the path does not begin with a slash. -/
def unixToWindowsPath (unset : UInt32) : Str → Option (List UInt16)
  | [] => some []
  | c :: rpl =>
    if c ≠ slash then none else some (UTF8_to_wchar unset (replace slash backslash (cstr rpl)))

def windowsToUnixPath (ws : List UInt16) (isRelPath : Bool) : Str :=
  if ws = [] then []
  else replace backslash slash (if isRelPath then wchar_to_UTF8 ws else slash :: wchar_to_UTF8 ws)

end Windows

section Encoder

variable {c : Char} {v codepoint : UInt32} {rest : List UInt32}

theorem toUInt8_field {mark bits shift : UInt32} (j k m t : Nat) (hshift : shift.toNat % 32 = j)
    (hbits : bits.toNat = 2 ^ k - 1) (hmark : mark.toNat = 2 ^ m * t) (hkm : k ≤ m) :
    (mark ||| ((v >>> shift) &&& bits)).toUInt8 = UInt8.ofNat (v.toNat / 2 ^ j % 2 ^ k + 2 ^ m * t) := by
  have hfield : ((v >>> shift) &&& bits).toNat = v.toNat / 2 ^ j % 2 ^ k := by
    rw [UInt32.toNat_and,UInt32.toNat_shiftRight,hshift,hbits,Nat.and_two_pow_sub_one_eq_mod,
      Nat.shiftRight_eq_div_pow]
  have hlt : v.toNat / 2 ^ j % 2 ^ k < 2 ^ m :=
    Nat.lt_of_lt_of_le (Nat.mod_lt _ (Nat.two_pow_pos k)) (Nat.pow_le_pow_right (by omega) hkm)
  rw [← tag_or hlt,← hmark,← hfield,← UInt32.toNat_or]
  rfl

theorem utf8_val (c : Char) : utf8 c.val = String.utf8EncodeChar c := by
  have two := @toUInt8_field c.val 0xc0 0x1f 6 6 5 6 3 rfl rfl rfl (by omega)
  have three := @toUInt8_field c.val 0xe0 0x0f 12 12 4 5 7 rfl rfl rfl (by omega)
  have four := @toUInt8_field c.val 0xf0 0x07 18 18 3 4 15 rfl rfl rfl (by omega)
  have tail₀ := @toUInt8_field c.val 0x80 0x3f 0 0 6 7 1 rfl rfl rfl (by omega)
  have tail₆ := @toUInt8_field c.val 0x80 0x3f 6 6 6 7 1 rfl rfl rfl (by omega)
  have tail₁₂ := @toUInt8_field c.val 0x80 0x3f 12 12 6 7 1 rfl rfl rfl (by omega)
  simp only [utf8,String.utf8EncodeChar,UInt32.le_iff_toNat_le,UInt32.reduceToNat,two,three,four,
    tail₀,tail₆,tail₁₂,Nat.pow_zero,Nat.div_one]
  rfl

theorem loop_val (hc : c ≠ '\x00') : wchar_to_UTF8Loop codepoint (c.val :: rest) =
    String.utf8EncodeChar c ++ wchar_to_UTF8Loop 0 rest := by
  have hscalar := scalar_range c
  have hpos : c.val.toNat ≠ 0 := fun h => hc ((eq_nul_iff c).mpr h)
  have hne : c.val ≠ 0 := fun h => hpos (congrArg UInt32.toNat h)
  have hhigh : ¬ (0xd800 ≤ c.val ∧ c.val ≤ 0xdbff) := by
    simp only [UInt32.le_iff_toNat_le,UInt32.reduceToNat]
    omega
  have hlow : ¬ (0xdc00 ≤ c.val ∧ c.val ≤ 0xdfff) := by
    simp only [UInt32.le_iff_toNat_le,UInt32.reduceToNat]
    omega
  simp only [wchar_to_UTF8Loop,if_neg hne,if_neg hhigh,if_neg hlow,utf8_val]

theorem loop_pair {high low : UInt32} (hc : 0xffff < c.val.toNat)
    (hhigh : high.toNat = (c.val.toNat - 0x10000) / 0x400 + 0xd800)
    (hlow : low.toNat = (c.val.toNat - 0x10000) % 0x400 + 0xdc00) :
    wchar_to_UTF8Loop codepoint (high :: low :: rest) =
      String.utf8EncodeChar c ++ wchar_to_UTF8Loop 0 rest := by
  have hscalar := scalar_range c
  have hne : ∀ {unit : UInt32}, 0xd800 ≤ unit.toNat → unit ≠ 0 := by
    rintro unit h rfl
    exact absurd h (by decide)
  have hval : ((high - 0xd800) <<< 10) + 0x10000 ||| (low - 0xdc00) = c.val := by
    apply UInt32.toNat.inj
    have hfields : (((high - 0xd800) <<< 10) + 0x10000).toNat =
        0x400 * ((c.val.toNat - 0x10000) / 0x400 + 0x40) := by
      simp only [UInt32.toNat_add,UInt32.toNat_shiftLeft,UInt32.toNat_sub,UInt32.reduceToNat,hhigh,
        Nat.reduceMod,Nat.shiftLeft_eq]
      omega
    have hlast : (low - 0xdc00).toNat = (c.val.toNat - 0x10000) % 0x400 := by
      simp only [UInt32.toNat_sub,UInt32.reduceToNat,hlow]
      omega
    have hor := @tag_or _ 10 ((c.val.toNat - 0x10000) / 0x400 + 0x40) (hlast ▸ Nat.mod_lt _ (by omega))
    rw [UInt32.toNat_or,hfields]
    refine hor.trans ?_
    omega
  have h₁ : 0xd800 ≤ high ∧ high ≤ 0xdbff := by
    simp only [UInt32.le_iff_toNat_le,UInt32.reduceToNat]
    omega
  have h₂ : ¬ (0xd800 ≤ low ∧ low ≤ 0xdbff) := by
    simp only [UInt32.le_iff_toNat_le,UInt32.reduceToNat]
    omega
  have h₃ : 0xdc00 ≤ low ∧ low ≤ 0xdfff := by
    simp only [UInt32.le_iff_toNat_le,UInt32.reduceToNat]
    omega
  simp only [wchar_to_UTF8Loop,if_neg (hne (show 0xd800 ≤ high.toNat by omega)),if_pos h₁,
    if_neg (hne (show 0xd800 ≤ low.toNat by omega)),if_neg h₂,if_pos h₃,hval,utf8_val]

end Encoder

section Decoder

variable {c : Char} {ch next : Byte} {in_ : Str} {codepoint : UInt32} {n : Nat}

theorem UTF8_to_wcharLoop_cons (hch : ch ≠ 0) : UTF8_to_wcharLoop codepoint (ch :: in_) =
    if ¬ Continues (in_.headD 0) ∧ accumulate codepoint ch ≤ 0x10ffff then
      accumulate codepoint ch :: UTF8_to_wcharLoop (accumulate codepoint ch) in_
    else UTF8_to_wcharLoop (accumulate codepoint ch) in_ := by
  rw [UTF8_to_wcharLoop,if_neg hch]
  rfl

theorem Windows.UTF8_to_wcharLoop_eq : Windows.UTF8_to_wcharLoop codepoint in_ =
    (RootHelper.UTF8_to_wcharLoop codepoint in_).flatMap Windows.append := by
  induction in_ generalizing codepoint with
  | nil => rfl
  | cons ch in_ ih =>
    by_cases hch : ch = 0
    · rw [Windows.UTF8_to_wcharLoop,RootHelper.UTF8_to_wcharLoop,if_pos hch,if_pos hch,List.flatMap_nil]
    · rw [UTF8_to_wcharLoop_cons hch,Windows.UTF8_to_wcharLoop,if_neg hch]
      simp only [ih]
      split
      · case isTrue h => rw [if_pos (show ¬ Continues _ ∧ _ from h),List.flatMap_cons]
      · case isFalse h => rw [if_neg (show ¬ (¬ Continues _ ∧ _) from h)]

theorem accumulate_toNat (hn : n < 0x100) : (accumulate codepoint (UInt8.ofNat n)).toNat =
    if n ≤ 0x7f then n
    else if n ≤ 0xbf then n % 0x40 + 0x40 * (codepoint.toNat % 0x4000000)
    else if n ≤ 0xdf then n % 0x20 else if n ≤ 0xef then n % 0x10 else n % 0x08 := by
  have hch : (UInt8.ofNat n).toNat = n := by rw [UInt8.toNat_ofNat',Nat.mod_eq_of_lt hn]
  simp only [accumulate,UInt8.le_iff_toNat_le,hch,UInt8.reduceToNat,apply_ite UInt32.toNat,
    UInt8.toNat_toUInt32,UInt8.toNat_and,UInt32.toNat_or,UInt32.toNat_shiftLeft,and_0x3f,and_0x1f,
    and_0x0f,and_0x07]
  have hshift : codepoint.toNat <<< 6 % 2 ^ 32 = 0x40 * (codepoint.toNat % 0x4000000) := by
    rw [Nat.shiftLeft_eq]
    omega
  have htail : 0x40 * (codepoint.toNat % 0x4000000) ||| n % 0x40 =
      n % 0x40 + 0x40 * (codepoint.toNat % 0x4000000) := @tag_or _ 6 _ (Nat.mod_lt _ (by omega))
  simp only [UInt32.reduceToNat,Nat.reduceMod,hshift,htail]

theorem accumulate_tail (hn : n < 0x40) : (accumulate codepoint (UInt8.ofNat (n + 0x80))).toNat =
    n + 0x40 * (codepoint.toNat % 0x4000000) := by
  rw [accumulate_toNat (by omega)]
  split_ifs <;> omega

theorem accumulate_two (hn : n < 0x20) : (accumulate codepoint (UInt8.ofNat (n + 0xc0))).toNat = n := by
  rw [accumulate_toNat (by omega)]
  split_ifs <;> omega

theorem accumulate_three (hn : n < 0x10) : (accumulate codepoint (UInt8.ofNat (n + 0xe0))).toNat = n := by
  rw [accumulate_toNat (by omega)]
  split_ifs <;> omega

theorem accumulate_four (hn : n < 0x08) : (accumulate codepoint (UInt8.ofNat (n + 0xf0))).toNat = n := by
  rw [accumulate_toNat (by omega)]
  split_ifs <;> omega

theorem loop_inner (hch : ch ≠ 0) (hnext : Continues next) :
    UTF8_to_wcharLoop codepoint (ch :: next :: in_) =
      UTF8_to_wcharLoop (accumulate codepoint ch) (next :: in_) := by
  rw [UTF8_to_wcharLoop_cons hch]
  simp [hnext]

theorem loop_last (hch : ch ≠ 0) (hin : ¬ Continues (in_.headD 0)) (hval : accumulate codepoint ch = c.val) :
    UTF8_to_wcharLoop codepoint (ch :: in_) = c.val :: UTF8_to_wcharLoop c.val in_ := by
  have hscalar := scalar_range c
  have hle : c.val ≤ 0x10ffff := by
    simp only [UInt32.le_iff_toNat_le,UInt32.reduceToNat]
    omega
  rw [UTF8_to_wcharLoop_cons hch,hval,if_pos ⟨hin,hle⟩]

theorem ofNat_ne_zero (h : 0 < n) (hn : n < 0x100) : UInt8.ofNat n ≠ 0 := by
  intro heq
  have hzero := congrArg UInt8.toNat heq
  rw [UInt8.toNat_ofNat',Nat.mod_eq_of_lt hn] at hzero
  exact absurd hzero (by simpa using h.ne')

/-- A whole character, with the first byte of the next one or the terminator behind it. What the
accumulator held before does not matter. -/
theorem loop_encodeChar (hc : c ≠ '\x00') (hin : ¬ Continues (in_.headD 0)) :
    UTF8_to_wcharLoop codepoint (String.utf8EncodeChar c ++ in_) =
      c.val :: UTF8_to_wcharLoop c.val in_ := by
  have hscalar := scalar_range c
  have hpos : c.val.toNat ≠ 0 := fun h => hc ((eq_nul_iff c).mpr h)
  simp only [String.utf8EncodeChar]
  split
  · case isTrue h =>
    apply loop_last (ofNat_ne_zero (by omega) (by omega)) hin
    apply UInt32.toNat.inj
    rw [accumulate_toNat (by omega),if_pos h]
  split
  · rw [List.cons_append,List.cons_append,loop_inner (ofNat_ne_zero (by omega) (by omega)) tail_continues]
    apply loop_last (ofNat_ne_zero (by omega) (by omega)) hin
    apply UInt32.toNat.inj
    rw [accumulate_tail (by omega),accumulate_two (by omega)]
    omega
  split
  · simp only [List.cons_append]
    rw [loop_inner (ofNat_ne_zero (by omega) (by omega)) tail_continues,
      loop_inner (ofNat_ne_zero (by omega) (by omega)) tail_continues]
    apply loop_last (ofNat_ne_zero (by omega) (by omega)) hin
    apply UInt32.toNat.inj
    rw [accumulate_tail (by omega),accumulate_tail (by omega),accumulate_three (by omega)]
    omega
  · simp only [List.cons_append]
    rw [loop_inner (ofNat_ne_zero (by omega) (by omega)) tail_continues,
      loop_inner (ofNat_ne_zero (by omega) (by omega)) tail_continues,
      loop_inner (ofNat_ne_zero (by omega) (by omega)) tail_continues]
    apply loop_last (ofNat_ne_zero (by omega) (by omega)) hin
    apply UInt32.toNat.inj
    rw [accumulate_tail (by omega),accumulate_tail (by omega),accumulate_tail (by omega),
      accumulate_four (by omega)]
    omega

end Decoder

section Texts

variable {text : List Char} {c : Char} {unset codepoint : UInt32}

theorem loop_encodeUtf8 (h : '\x00' ∉ text) :
    UTF8_to_wcharLoop codepoint (encodeUtf8 text) = text.map Char.val := by
  induction text generalizing codepoint with
  | nil => rfl
  | cons c text ih =>
    rw [List.mem_cons,not_or] at h
    rw [encodeUtf8_cons,loop_encodeChar (Ne.symm h.1) encodeUtf8_starts,ih h.2,List.map_cons]

theorem wchar_to_UTF8_val (h : '\x00' ∉ text) : wchar_to_UTF8 (text.map Char.val) = encodeUtf8 text := by
  rw [wchar_to_UTF8]
  induction text with
  | nil => rfl
  | cons c text ih =>
    rw [List.mem_cons,not_or] at h
    rw [List.map_cons,loop_val (Ne.symm h.1),ih h.2,encodeUtf8_cons]

theorem wide_roundtrip (unset : UInt32) :
    (∀ text : List Char, '\x00' ∉ text →
      UTF8_to_wchar unset (wchar_to_UTF8 (text.map Char.val)) = text.map Char.val) ∧
    (∀ b : Str, WellFormedUtf8 b → 0 ∉ b → wchar_to_UTF8 (UTF8_to_wchar unset b) = b) := by
  constructor
  · intro text h
    rw [wchar_to_UTF8_val h,UTF8_to_wchar,loop_encodeUtf8 h]
  · rintro b ⟨text,rfl⟩ h0
    have h : '\x00' ∉ text := fun hmem => h0 (zero_mem_encodeUtf8.mpr hmem)
    rw [UTF8_to_wchar,loop_encodeUtf8 h,wchar_to_UTF8_val h]

theorem wide_roundtrip_text :
    UTF8_to_wchar 0 (wchar_to_UTF8 (['a','€'].map Char.val)) = ['a','€'].map Char.val ∧
      wchar_to_UTF8 (UTF8_to_wchar 0 [0xe2,0x82,0xac]) = [0xe2,0x82,0xac] :=
  ⟨(wide_roundtrip 0).1 ['a','€'] (by decide),
   (wide_roundtrip 0).2 [0xe2,0x82,0xac] ⟨['€'],by decide⟩ (by decide)⟩

end Texts

namespace Windows

variable {text : List Char} {c : Char} {unset codepoint : UInt32}

theorem wchar_to_UTF8_encodeUtf16 (h : '\x00' ∉ text) : wchar_to_UTF8 (encodeUtf16 text) = encodeUtf8 text := by
  rw [wchar_to_UTF8,RootHelper.wchar_to_UTF8]
  induction text with
  | nil => rfl
  | cons c text ih =>
    rw [List.mem_cons,not_or] at h
    have hscalar := scalar_range c
    rw [encodeUtf16_cons,encodeUtf8_cons,← ih h.2,utf16EncodeChar]
    split
    · have hunit : (UInt16.ofNat c.val.toNat).toUInt32 = c.val := by
        apply UInt32.toNat.inj
        rw [UInt16.toNat_toUInt32,UInt16.toNat_ofNat',Nat.mod_eq_of_lt (by omega)]
      rw [List.cons_append,List.map_cons,hunit,loop_val (Ne.symm h.1)]
      rfl
    · case isFalse hlarge =>
      rw [List.cons_append,List.cons_append,List.map_cons,List.map_cons,loop_pair (Nat.lt_of_not_le hlarge)]
      · rfl
      · rw [UInt16.toNat_toUInt32,UInt16.toNat_ofNat',Nat.mod_eq_of_lt (by omega)]
      · rw [UInt16.toNat_toUInt32,UInt16.toNat_ofNat',Nat.mod_eq_of_lt (by omega)]

theorem append_basic (h : c.val.toNat ≤ 0xffff) : append c.val = utf16EncodeChar c := by
  have hscalar := scalar_range c
  have hsmall : ¬ (0xffff < c.val) := by
    simp only [UInt32.lt_iff_toNat_lt,UInt32.reduceToNat]
    omega
  have hplain : c.val < 0xd800 ∨ 0xe000 ≤ c.val := by
    simp only [UInt32.lt_iff_toNat_lt,UInt32.le_iff_toNat_le,UInt32.reduceToNat]
    omega
  simp only [append,if_neg hsmall,if_pos hplain,utf16EncodeChar,if_pos h]
  rfl

/-- 0x10000 is not taken away from the code point before it is split. -/
theorem append_supplementary (h : 0xffff < c.val.toNat) :
    ∃ high high' low low', append c.val = [high,low] ∧ utf16EncodeChar c = [high',low'] ∧ high ≠ high' := by
  have hscalar := scalar_range c
  have hlarge : 0xffff < c.val := by
    simp only [UInt32.lt_iff_toNat_lt,UInt32.reduceToNat]
    omega
  simp only [append,if_pos hlarge,utf16EncodeChar,if_neg (show ¬ c.val.toNat ≤ 0xffff by omega)]
  refine ⟨_,_,_,_,rfl,rfl,fun heq => ?_⟩
  have hshift : (c.val >>> 10).toNat = c.val.toNat / 0x400 := Nat.shiftRight_eq_div_pow _ 10
  have hsum : ((0xd800 : UInt32) + (c.val >>> 10)).toNat = 0xd800 + c.val.toNat / 0x400 := by
    rw [UInt32.toNat_add,hshift]
    exact Nat.mod_eq_of_lt (by simp only [UInt32.reduceToNat]; omega)
  have hnat := congrArg UInt16.toNat heq
  rw [UInt32.toNat_toUInt16,hsum,UInt16.toNat_ofNat'] at hnat
  omega

theorem UTF8_to_wchar_basic (h : '\x00' ∉ text) (hbasic : ∀ c ∈ text, c.val.toNat ≤ 0xffff) :
    UTF8_to_wchar unset (encodeUtf8 text) = encodeUtf16 text := by
  rw [UTF8_to_wchar,UTF8_to_wcharLoop_eq,loop_encodeUtf8 h,List.flatMap_map]
  exact List.flatMap_congr fun c hc => append_basic (hbasic c hc)

theorem basic_of_encodeUtf16 (h : text.flatMap (fun c => append c.val) = encodeUtf16 text) :
    ∀ c ∈ text, c.val.toNat ≤ 0xffff := by
  induction text with
  | nil => simp
  | cons c text ih =>
    rw [List.flatMap_cons,encodeUtf16_cons] at h
    by_cases hc : c.val.toNat ≤ 0xffff
    · rw [append_basic hc,List.append_right_inj] at h
      exact List.forall_mem_cons.mpr ⟨hc,ih h⟩
    · obtain ⟨high,high',low,low',hwide,hutf,hne⟩ := append_supplementary (Nat.lt_of_not_le hc)
      rw [hwide,hutf] at h
      exact absurd (List.cons.inj h).1 hne

theorem utf16_iff {b : Str} {text : List Char} (hb : b = encodeUtf8 text) (h0 : 0 ∉ b) (unset : UInt32) :
    (UTF8_to_wchar unset b = encodeUtf16 text ∧ wchar_to_UTF8 (UTF8_to_wchar unset b) = b) ↔
      ∀ c ∈ text, c.val.toNat ≤ 0xffff := by
  subst hb
  have h : '\x00' ∉ text := fun hmem => h0 (zero_mem_encodeUtf8.mpr hmem)
  constructor
  · rintro ⟨hutf,_⟩
    rw [UTF8_to_wchar,UTF8_to_wcharLoop_eq,loop_encodeUtf8 h,List.flatMap_map] at hutf
    exact basic_of_encodeUtf16 hutf
  · intro hbasic
    rw [UTF8_to_wchar_basic h hbasic]
    exact ⟨rfl,wchar_to_UTF8_encodeUtf16 h⟩

theorem utf16_iff_euro : (UTF8_to_wchar 0 [0xe2,0x82,0xac] = encodeUtf16 ['€'] ∧
    wchar_to_UTF8 (UTF8_to_wchar 0 [0xe2,0x82,0xac]) = [0xe2,0x82,0xac]) ↔
      ∀ c ∈ ['€'], c.val.toNat ≤ 0xffff :=
  utf16_iff (by decide) (by decide) 0

/-- U+1F600 becomes U+2F600. -/
theorem supplementary_moved : encodeUtf8 [Char.ofNat 0x1f600] = [0xf0,0x9f,0x98,0x80] ∧
    ¬ (UTF8_to_wchar 0 [0xf0,0x9f,0x98,0x80] = encodeUtf16 [Char.ofNat 0x1f600]) ∧
    wchar_to_UTF8 (UTF8_to_wchar 0 [0xf0,0x9f,0x98,0x80]) = [0xf0,0xaf,0x98,0x80] := by
  decide

theorem replace_encodeUtf8 {old new : Char} (hold : old.val.toNat ≤ 0x7f) (hnew : new.val.toNat ≤ 0x7f) :
    replace (UInt8.ofNat old.val.toNat) (UInt8.ofNat new.val.toNat) (encodeUtf8 text) =
      encodeUtf8 (text.map fun c => if c = old then new else c) :=
  encodeUtf8_replace hold hnew

theorem encodeUtf16_eq_nil : encodeUtf16 text = [] ↔ text = [] := by
  cases text with
  | nil => simp
  | cons c text =>
    rw [encodeUtf16_cons,utf16EncodeChar]
    split <;> simp

/-- A path of characters of the basic plane, with no backslash of its own, gets to the other side and
back. The root has no way back: it becomes the empty path. -/
theorem windowsToUnixPath_unixToWindowsPath (htext : text ≠ []) (h : '\x00' ∉ text)
    (hbasic : ∀ c ∈ text, c.val.toNat ≤ 0xffff) (hback : '\\' ∉ text) :
    (unixToWindowsPath unset (slash :: encodeUtf8 text)).map (windowsToUnixPath · false) =
      some (slash :: encodeUtf8 text) := by
  let mapped := text.map fun c => if c = '/' then '\\' else c
  have hnul : '\x00' ∉ mapped := by
    intro hmem
    obtain ⟨c,hc,heq⟩ := List.mem_map.mp hmem
    split at heq
    · cases heq
    · exact h (heq ▸ hc)
  have hplain : ∀ c ∈ mapped, c.val.toNat ≤ 0xffff := by
    intro c hmem
    obtain ⟨c',hc',rfl⟩ := List.mem_map.mp hmem
    split
    · decide
    · exact hbasic c' hc'
  have hcut : cstr (encodeUtf8 text) = encodeUtf8 text :=
    cstr_of_nulFree fun hzero => h (zero_mem_encodeUtf8.mp hzero)
  have hthere : replace slash backslash (encodeUtf8 text) = encodeUtf8 mapped :=
    replace_encodeUtf8 (by decide : ('/').val.toNat ≤ 0x7f) (by decide : ('\\').val.toNat ≤ 0x7f)
  have hhere : replace backslash slash (encodeUtf8 mapped) = encodeUtf8 text := by
    have hmap : mapped.map (fun c => if c = '\\' then '/' else c) = text := by
      rw [List.map_map]
      conv_rhs => rw [← List.map_id text]
      refine List.map_congr_left fun c hc => ?_
      have hne : c ≠ '\\' := fun heq => hback (heq ▸ hc)
      by_cases hslash : c = '/' <;> simp [hslash,hne]
    have hbytes : replace backslash slash (encodeUtf8 mapped) =
        encodeUtf8 (mapped.map fun c => if c = '\\' then '/' else c) :=
      replace_encodeUtf8 (by decide : ('\\').val.toNat ≤ 0x7f) (by decide : ('/').val.toNat ≤ 0x7f)
    rwa [hmap] at hbytes
  have hne : encodeUtf16 mapped ≠ [] := by
    rw [Ne,encodeUtf16_eq_nil,List.map_eq_nil_iff]
    exact htext
  simp only [unixToWindowsPath,ne_eq,not_true_eq_false,if_false,hcut,hthere,
    UTF8_to_wchar_basic hnul hplain,Option.map_some,windowsToUnixPath,if_neg hne,
    wchar_to_UTF8_encodeUtf16 hnul,Bool.false_eq_true]
  congr 1
  exact congrArg (slash :: ·) hhere

end Windows

end RootHelper
