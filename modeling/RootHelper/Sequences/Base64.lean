import Mathlib.Algebra.Group.Nat.Defs
import Mathlib.Tactic.Common

/-!
Base64 with its standard alphabet and padding: every three bytes are four letters of six bits.
-/

set_option autoImplicit false

namespace Encodings

def base64Letter (n : Nat) : UInt8 :=
  if n < 26 then UInt8.ofNat (n + 65)
  else if n < 52 then UInt8.ofNat (n + 71)
  else if n < 62 then UInt8.ofNat (n - 4)
  else if n = 62 then 43
  else 47

def base64Value (b : UInt8) : Option Nat :=
  if 65 ≤ b ∧ b ≤ 90 then some (b.toNat - 65)
  else if 97 ≤ b ∧ b ≤ 122 then some (b.toNat - 71)
  else if 48 ≤ b ∧ b ≤ 57 then some (b.toNat + 4)
  else if b = 43 then some 62
  else if b = 47 then some 63
  else none

def base64Pad : UInt8 := 61

theorem base64Value_letter {n : Nat} (h : n < 64) : base64Value (base64Letter n) = some n := by
  have hall : ∀ n < 64, base64Value (base64Letter n) = some n := by decide +kernel
  exact hall n h

theorem letter_ne_pad {n : Nat} (h : n < 64) : base64Letter n ≠ base64Pad := by
  have hall : ∀ n < 64, base64Letter n ≠ base64Pad := by decide +kernel
  exact hall n h

theorem letter_ne_newline (n : Nat) : base64Letter n ≠ 10 := by
  have hall : ∀ n < 64, base64Letter n ≠ 10 := by decide +kernel
  by_cases h : n < 64
  · exact hall n h
  · have h63 : base64Letter n = 47 := by
      rw [base64Letter,if_neg (by omega),if_neg (by omega),if_neg (by omega),if_neg (by omega)]
    rw [h63]
    decide

def base64Letters (n : Nat) : List UInt8 :=
  [base64Letter (n / 2^18),base64Letter (n / 2^12 % 64),base64Letter (n / 2^6 % 64),base64Letter (n % 64)]

/-- A group that is not full is filled with zeros, and what stands for nothing but these is padding. -/
def encodeBase64 : List UInt8 → List UInt8
  | [] => []
  | [a] => (base64Letters (a.toNat * 2^16)).take 2 ++ [base64Pad,base64Pad]
  | [a,b] => (base64Letters (a.toNat * 2^16 + b.toNat * 2^8)).take 3 ++ [base64Pad]
  | a :: b :: c :: s => base64Letters (a.toNat * 2^16 + b.toNat * 2^8 + c.toNat) ++ encodeBase64 s

theorem length_encodeBase64 (s : List UInt8) :
    (encodeBase64 s).length = 4 * ((s.length + 2) / 3) := by
  induction s using encodeBase64.induct with
  | case1 => rfl
  | case2 a => simp [encodeBase64,base64Letters]
  | case3 a b => simp [encodeBase64,base64Letters]
  | case4 a b c s ih =>
    rw [encodeBase64,List.length_append,ih]
    simp only [base64Letters,List.length_cons,List.length_nil]
    omega

theorem newline_notMem_encodeBase64 (s : List UInt8) : (10 : UInt8) ∉ encodeBase64 s := by
  have hletters : ∀ n, ∀ b ∈ base64Letters n, b ≠ 10 := by
    intro n b hb
    simp only [base64Letters,List.mem_cons,List.not_mem_nil,or_false] at hb
    rcases hb with rfl | rfl | rfl | rfl <;> exact letter_ne_newline _
  induction s using encodeBase64.induct with
  | case1 => exact List.not_mem_nil
  | case2 a =>
    rw [encodeBase64,List.mem_append,not_or]
    exact ⟨fun h => hletters _ _ (List.mem_of_mem_take h) rfl,by decide⟩
  | case3 a b =>
    rw [encodeBase64,List.mem_append,not_or]
    exact ⟨fun h => hletters _ _ (List.mem_of_mem_take h) rfl,by decide⟩
  | case4 a b c s ih =>
    rw [encodeBase64,List.mem_append,not_or]
    exact ⟨fun h => hletters _ _ h rfl,ih⟩

def base64Bytes (n : Nat) : List UInt8 :=
  [UInt8.ofNat (n / 2^16),UInt8.ofNat (n / 2^8 % 2^8),UInt8.ofNat (n % 2^8)]

/-- The bytes of four letters: the bits that padding stands for have to be zero. -/
def decodeGroup (w x y z : UInt8) : Option (List UInt8) := do
  let p ← base64Value w
  let q ← base64Value x
  if z = base64Pad then
    if y = base64Pad then
      if q % 2^4 = 0 then some ((base64Bytes (p * 2^18 + q * 2^12)).take 1) else none
    else do
      let r ← base64Value y
      if r % 2^2 = 0 then some ((base64Bytes (p * 2^18 + q * 2^12 + r * 2^6)).take 2) else none
  else do
    let r ← base64Value y
    let s ← base64Value z
    some (base64Bytes (p * 2^18 + q * 2^12 + r * 2^6 + s))

/-- Padding stands in the last group alone. -/
def decodeBase64 : List UInt8 → Option (List UInt8)
  | [] => some []
  | w :: x :: y :: z :: s => do
    let group ← decodeGroup w x y z
    let rest ← decodeBase64 s
    if z = base64Pad ∧ s ≠ [] then none else some (group ++ rest)
  | _ => none

section Groups

variable (a b c : UInt8)

theorem decodeGroup_one :
    decodeGroup (base64Letter (a.toNat * 2^16 / 2^18)) (base64Letter (a.toNat * 2^16 / 2^12 % 64))
      base64Pad base64Pad = some [a] := by
  have ha := a.toNat_lt
  have hq : a.toNat * 2^16 / 2^12 % 64 % 2^4 = 0 := by omega
  have hn : a.toNat * 2^16 / 2^18 * 2^18 + a.toNat * 2^16 / 2^12 % 64 * 2^12 = a.toNat * 2^16 := by omega
  have hbyte : a.toNat * 2^16 / 2^16 = a.toNat := by omega
  simp only [decodeGroup,base64Value_letter (n := a.toNat * 2^16 / 2^18) (by omega),
    base64Value_letter (n := a.toNat * 2^16 / 2^12 % 64) (by omega),Option.bind_eq_bind,
    Option.bind_some,if_true,hq,hn,base64Bytes,hbyte,List.take_succ_cons,List.take_zero,UInt8.ofNat_toNat]

theorem decodeGroup_two {n : Nat} (hn : n = a.toNat * 2^16 + b.toNat * 2^8) :
    decodeGroup (base64Letter (n / 2^18)) (base64Letter (n / 2^12 % 64)) (base64Letter (n / 2^6 % 64))
      base64Pad = some [a,b] := by
  have ha := a.toNat_lt
  have hb := b.toNat_lt
  have hr : n / 2^6 % 64 % 2^2 = 0 := by omega
  have hsum : n / 2^18 * 2^18 + n / 2^12 % 64 * 2^12 + n / 2^6 % 64 * 2^6 = n := by omega
  have hfirst : n / 2^16 = a.toNat := by omega
  have hsecond : n / 2^8 % 2^8 = b.toNat := by omega
  simp only [decodeGroup,base64Value_letter (n := n / 2^18) (by omega),
    base64Value_letter (n := n / 2^12 % 64) (by omega),base64Value_letter (n := n / 2^6 % 64) (by omega),
    Option.bind_eq_bind,Option.bind_some,if_true,if_neg (letter_ne_pad (n := n / 2^6 % 64) (by omega)),
    hr,hsum,base64Bytes,hfirst,hsecond,List.take_succ_cons,List.take_zero,UInt8.ofNat_toNat]

theorem decodeGroup_three {n : Nat} (hn : n = a.toNat * 2^16 + b.toNat * 2^8 + c.toNat) :
    decodeGroup (base64Letter (n / 2^18)) (base64Letter (n / 2^12 % 64)) (base64Letter (n / 2^6 % 64))
      (base64Letter (n % 64)) = some [a,b,c] := by
  have ha := a.toNat_lt
  have hb := b.toNat_lt
  have hc := c.toNat_lt
  have hsum : n / 2^18 * 2^18 + n / 2^12 % 64 * 2^12 + n / 2^6 % 64 * 2^6 + n % 64 = n := by omega
  have hfirst : n / 2^16 = a.toNat := by omega
  have hsecond : n / 2^8 % 2^8 = b.toNat := by omega
  have hthird : n % 2^8 = c.toNat := by omega
  simp only [decodeGroup,base64Value_letter (n := n / 2^18) (by omega),
    base64Value_letter (n := n / 2^12 % 64) (by omega),base64Value_letter (n := n / 2^6 % 64) (by omega),
    base64Value_letter (n := n % 64) (by omega),Option.bind_eq_bind,Option.bind_some,
    if_neg (letter_ne_pad (n := n % 64) (by omega)),hsum,base64Bytes,hfirst,hsecond,hthird,
    UInt8.ofNat_toNat]

end Groups

theorem decode_encodeBase64 (s : List UInt8) : decodeBase64 (encodeBase64 s) = some s := by
  induction s using encodeBase64.induct with
  | case1 => rfl
  | case2 a =>
    simp [encodeBase64,base64Letters,decodeBase64,decodeGroup_one a,-Nat.reducePow]
  | case3 a b =>
    simp [encodeBase64,base64Letters,decodeBase64,decodeGroup_two a b rfl,-Nat.reducePow]
  | case4 a b c s ih =>
    have hlast : base64Letter ((a.toNat * 2^16 + b.toNat * 2^8 + c.toNat) % 64) ≠ base64Pad :=
      letter_ne_pad (by omega)
    rw [encodeBase64,base64Letters,List.cons_append,List.cons_append,List.cons_append,List.cons_append,
      List.nil_append,decodeBase64,decodeGroup_three a b c rfl,ih]
    simp [hlast,-Nat.reducePow]

end Encodings
