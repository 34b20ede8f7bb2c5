import Mathlib.Algebra.Group.Nat.Defs
import Mathlib.Data.Nat.Bits
import Mathlib.Tactic.Common

/-!
Texts of Unicode scalar values and their encodings in bytes and in 16-bit units, with what a decoder
that looks at single bytes needs to know of the encoded bytes.
-/

set_option autoImplicit false

namespace Encodings

def encodeUtf8 (text : List Char) : List UInt8 := text.flatMap String.utf8EncodeChar

def WellFormedUtf8 (b : List UInt8) : Prop := ∃ text, b = encodeUtf8 text

def utf16EncodeChar (c : Char) : List UInt16 :=
  let v := c.val.toNat
  if v ≤ 0xffff then [UInt16.ofNat v]
  else [UInt16.ofNat ((v - 0x10000) / 0x400 + 0xd800),UInt16.ofNat ((v - 0x10000) % 0x400 + 0xdc00)]

def encodeUtf16 (text : List Char) : List UInt16 := text.flatMap utf16EncodeChar

/-- A byte inside a character, not its first. -/
def Continues (b : UInt8) : Prop := b &&& 0xc0 = 0x80

instance (b : UInt8) : Decidable (Continues b) := inferInstanceAs (Decidable (_ = _))

section Scalars

variable (c : Char)

theorem scalar_range : c.val.toNat < 0xd800 ∨ 0xdfff < c.val.toNat ∧ c.val.toNat ≤ 0x10ffff := by
  have hv := c.valid
  simp only [UInt32.isValidChar,Nat.isValidChar] at hv
  omega

theorem eq_nul_iff : c = '\x00' ↔ c.val.toNat = 0 := by
  constructor
  · rintro rfl
    rfl
  · intro h
    apply Char.ext
    exact UInt32.toNat.inj h

end Scalars

section Bytes

variable {n : Nat}

theorem and_0x3f : n &&& 0x3f = n % 0x40 := Nat.and_two_pow_sub_one_eq_mod n 6

theorem and_0x1f : n &&& 0x1f = n % 0x20 := Nat.and_two_pow_sub_one_eq_mod n 5

theorem and_0x0f : n &&& 0x0f = n % 0x10 := Nat.and_two_pow_sub_one_eq_mod n 4

theorem and_0x07 : n &&& 0x07 = n % 0x08 := Nat.and_two_pow_sub_one_eq_mod n 3

/-- A tag above a field of `k` bits. -/
theorem tag_or {k tag : Nat} (h : n < 2 ^ k) : 2 ^ k * tag ||| n = n + 2 ^ k * tag := by
  rw [← Nat.two_pow_add_eq_or_of_lt h tag,Nat.add_comm]

theorem tail_continues : Continues (UInt8.ofNat (n % 0x40 + 0x80)) := by
  have hall : ∀ m < 0x40, Continues (UInt8.ofNat (m + 0x80)) := by decide
  exact hall _ (Nat.mod_lt _ (by omega))

theorem ascii_starts (h : n ≤ 0x7f) : ¬ Continues (UInt8.ofNat n) := by
  have hall : ∀ m < 0x80, ¬ Continues (UInt8.ofNat m) := by decide
  exact hall n (by omega)

theorem lead_starts (h : n < 0x40) : ¬ Continues (UInt8.ofNat (n + 0xc0)) := by
  have hall : ∀ m < 0x40, ¬ Continues (UInt8.ofNat (m + 0xc0)) := by decide
  exact hall n h

end Bytes

section Texts

variable {c : Char} {text : List Char}

@[simp] theorem encodeUtf8_nil : encodeUtf8 [] = [] := rfl

@[simp] theorem encodeUtf8_cons : encodeUtf8 (c :: text) = String.utf8EncodeChar c ++ encodeUtf8 text := rfl

@[simp] theorem encodeUtf16_nil : encodeUtf16 [] = [] := rfl

@[simp] theorem encodeUtf16_cons : encodeUtf16 (c :: text) = utf16EncodeChar c ++ encodeUtf16 text := rfl

theorem encodeChar_starts : ∃ b rest, String.utf8EncodeChar c = b :: rest ∧ ¬ Continues b := by
  simp only [String.utf8EncodeChar]
  split
  · case isTrue h => exact ⟨_,_,rfl,ascii_starts h⟩
  split
  · exact ⟨_,_,rfl,lead_starts (by omega)⟩
  split
  · have hlead : c.val.toNat / 4096 % 0x10 + 0xe0 = c.val.toNat / 4096 % 0x10 + 0x20 + 0xc0 := by omega
    exact ⟨_,_,rfl,hlead ▸ lead_starts (by omega)⟩
  · have hlead : c.val.toNat / 262144 % 0x08 + 0xf0 = c.val.toNat / 262144 % 0x08 + 0x30 + 0xc0 := by
      omega
    exact ⟨_,_,rfl,hlead ▸ lead_starts (by omega)⟩

theorem encodeUtf8_starts : ¬ Continues ((encodeUtf8 text).headD 0) := by
  cases text with
  | nil => decide
  | cons c text =>
    obtain ⟨b,rest,heq,hb⟩ := encodeChar_starts (c := c)
    simpa [heq] using hb

/-- A byte below 0x80 is a character of its own, and no such byte stands inside another one. -/
theorem encodeChar_cases : c.val.toNat ≤ 0x7f ∧ String.utf8EncodeChar c = [UInt8.ofNat c.val.toNat] ∨
    0x7f < c.val.toNat ∧ ∀ b ∈ String.utf8EncodeChar c, 0x7f < b.toNat := by
  by_cases h : c.val.toNat ≤ 0x7f
  · exact .inl ⟨h,by simp only [String.utf8EncodeChar,if_pos h]⟩
  · refine .inr ⟨by omega,?_⟩
    simp only [String.utf8EncodeChar,if_neg h]
    split_ifs
    all_goals
      simp only [List.forall_mem_cons,List.not_mem_nil,false_imp_iff,implies_true,and_true,
        UInt8.toNat_ofNat']
      omega

theorem zero_mem_encodeChar : 0 ∈ String.utf8EncodeChar c ↔ c = '\x00' := by
  rw [eq_nul_iff]
  rcases encodeChar_cases (c := c) with ⟨hle,heq⟩ | ⟨hlt,hhigh⟩
  · rw [heq,List.mem_singleton,← UInt8.toNat_inj,UInt8.toNat_ofNat',UInt8.toNat_zero]
    omega
  · have hnot : 0 ∉ String.utf8EncodeChar c := fun hmem => absurd (hhigh 0 hmem) (by decide)
    exact iff_of_false hnot (by omega)

theorem zero_mem_encodeUtf8 : 0 ∈ encodeUtf8 text ↔ '\x00' ∈ text := by
  simp [encodeUtf8,zero_mem_encodeChar]

/-- Replacing a character below 0x80 by another one is replacing its byte. -/
theorem encodeUtf8_replace {a a' : Char} (ha : a.val.toNat ≤ 0x7f) (ha' : a'.val.toNat ≤ 0x7f) :
    (encodeUtf8 text).map (fun b => if b = UInt8.ofNat a.val.toNat then UInt8.ofNat a'.val.toNat else b) =
      encodeUtf8 (text.map fun c => if c = a then a' else c) := by
  have hone : ∀ {c : Char}, c.val.toNat ≤ 0x7f → String.utf8EncodeChar c = [UInt8.ofNat c.val.toNat] :=
    fun {c} h => by simp only [String.utf8EncodeChar,if_pos h]
  induction text with
  | nil => rfl
  | cons c text ih =>
    rw [encodeUtf8_cons,List.map_append,ih,List.map_cons,encodeUtf8_cons]
    congr 1
    rcases encodeChar_cases (c := c) with ⟨hle,heq⟩ | ⟨hlt,hhigh⟩
    · rw [heq]
      have hbyte : UInt8.ofNat c.val.toNat = UInt8.ofNat a.val.toNat ↔ c = a := by
        rw [← UInt8.toNat_inj,UInt8.toNat_ofNat',UInt8.toNat_ofNat',Nat.mod_eq_of_lt (by omega),
          Nat.mod_eq_of_lt (by omega)]
        exact ⟨fun h => Char.ext (UInt32.toNat.inj h),fun h => h ▸ rfl⟩
      by_cases hc : c = a
      · subst hc
        simp [hone ha']
      · simp only [List.map_cons,List.map_nil,hbyte,hc,if_false,heq]
    · have hc : c ≠ a := by
        rintro rfl
        omega
      rw [if_neg hc]
      conv_rhs => rw [← List.map_id (String.utf8EncodeChar c)]
      refine List.map_congr_left fun b hb => if_neg fun heq => ?_
      have hbyte := hhigh b hb
      rw [heq,UInt8.toNat_ofNat'] at hbyte
      omega

end Texts

end Encodings
