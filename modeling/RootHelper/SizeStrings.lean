import RootHelper.HeaderFields
import RootHelper.Redirects

/-!
Sizes on the command line: a number, with or without a unit behind it. The unit is looked for at the end
of the string, the number at the beginning of what stands before.
-/

set_option autoImplicit false

namespace RootHelper
open Posix

/-- The digits are read as far as they go, a minus sign negates in 64 bits. -/
def stoull (p : Str) : Except Thrown UInt64 :=
  let s := (cstr p).dropWhile isspace
  let n := decimal (portDigits s)
  if portDigits s = [] then throw .invalid_argument
  else if 2^64 ≤ n then throw .out_of_range
  else pure (if s.head? = some 45 then - UInt64.ofNat n else UInt64.ofNat n)

def unitError : Except Thrown UInt64 := throw .invalid_argument

def candidateMultiplier (lastChar : Byte) : Option UInt64 :=
  if lastChar = 98 then some 1000 else if lastChar = 66 then some 1024 else none

/-- With the bytes that are cut off for the unit. -/
def multiplier (candidate : UInt64) (lastChar2 : Byte) : Option (Nat × UInt64) :=
  if lastChar2 = 107 then some (2,candidate)
  else if lastChar2 = 77 then some (2,candidate * candidate)
  else if lastChar2 = 71 then some (2,candidate * candidate * candidate)
  else if isdigit lastChar2 then some (1,1)
  else none

/-- Nothing when one of the last two bytes is not there: both are read before anything else. -/
def parseSizeString (sizeAsStr : Str) : Option (Except Thrown UInt64) :=
  match sizeAsStr.reverse with
  | lastChar :: lastChar2 :: _ => some <|
    match candidateMultiplier lastChar with
    | some candidate =>
      match multiplier candidate lastChar2 with
      | some (trunc,multiplier) => do
        let ret ← stoull (sizeAsStr.take (sizeAsStr.length - trunc))
        pure (ret * multiplier)
      | none => unitError
    | none =>
      if isdigit lastChar then
        match stoull sizeAsStr with
        | .error .invalid_argument => unitError
        | ret => ret
      else unitError
  | _ => none

def sizeUnits : List (Str × Nat) :=
  [([],1),(text ['b'],1),(text ['B'],1),
   (text ['k','b'],1000),(text ['M','b'],1000^2),(text ['G','b'],1000^3),
   (text ['k','B'],1024),(text ['M','B'],1024^2),(text ['G','B'],1024^3)]

def Digits (ds : Str) : Prop := ds ≠ [] ∧ ∀ d ∈ ds, isdigit d

/-- The string says the size: digits and a unit, and nothing else. -/
def SizeText (s : Str) (n : Nat) : Prop :=
  ∃ ds u m, (u,m) ∈ sizeUnits ∧ Digits ds ∧ s = ds ++ u ∧ n = decimal ds * m

def Sized (s : Str) : Prop := ∃ n < 2^64, SizeText s n

/-- The result is what the string says, or the error for a string that says no size. -/
def RightSize (s : Str) : Option (Except Thrown UInt64) → Prop
  | some (.ok n) => SizeText s n.toNat
  | some (.error .invalid_argument) => ¬ Sized s
  | _ => False

/-- What stands before the unit. Only a unit of two letters may have something other than a digit before
it. -/
def BeforeUnit (s t : Str) (m : Nat) : Prop :=
  ∃ u, (u,m) ∈ sizeUnits ∧ s = t ++ u ∧ (u.length < 2 → ∃ d ∈ t.getLast?, isdigit d)

/-- Behind spaces and a sign there is a digit. -/
def NumberInFront (t : Str) : Prop := portDigits ((cstr t).dropWhile isspace) ≠ []

theorem Digits.nulFree {ds : Str} (h : Digits ds) : NulFree ds :=
  fun h0 => absurd (h.2 0 h0) (by decide)

theorem Digits.dropWhile_isspace {ds : Str} (h : Digits ds) : ds.dropWhile isspace = ds := by
  obtain ⟨d,rest,rfl⟩ := List.exists_cons_of_ne_nil h.1
  have hd := (not_isspace_of_isdigit (h.2 d (by simp))).1
  rw [List.dropWhile_cons_of_neg (by simp [hd])]

theorem Digits.portDigits_eq {ds : Str} (h : Digits ds) : portDigits ds = ds := by
  obtain ⟨d,rest,rfl⟩ := List.exists_cons_of_ne_nil h.1
  have hd := not_isspace_of_isdigit (h.2 d (by simp))
  unfold portDigits
  split
  · rename_i heq; exact absurd (List.cons.inj heq).1 hd.2.1
  · rename_i heq; exact absurd (List.cons.inj heq).1 hd.2.2.1
  · exact List.takeWhile_eq_self_iff.mpr h.2

theorem Digits.head_ne_minus {ds : Str} (h : Digits ds) : ds.head? ≠ some 45 := by
  obtain ⟨d,rest,rfl⟩ := List.exists_cons_of_ne_nil h.1
  simpa using (not_isspace_of_isdigit (h.2 d (by simp))).2.1

theorem stoull_digits {ds : Str} (h : Digits ds) (hn : decimal ds < 2^64) :
    stoull ds = .ok (UInt64.ofNat (decimal ds)) := by
  simp only [stoull,cstr_of_nulFree h.nulFree,h.dropWhile_isspace,h.portDigits_eq]
  rw [if_neg h.1,if_neg (by omega),if_neg h.head_ne_minus]
  rfl

theorem stoull_no_number {t : Str} (h : ¬ NumberInFront t) : stoull t = .error .invalid_argument :=
  if_pos (not_not.mp h)

theorem stoull_number {t : Str} (h : NumberInFront t) : stoull t ≠ .error .invalid_argument := by
  simp only [stoull]
  rw [if_neg h]
  split
  · simp [throw,throwThe,MonadExceptOf.throw]
  · simp [pure,Except.pure]

theorem not_unit_letter {d : Byte} (h : isdigit d) : d ≠ 98 ∧ d ≠ 66 ∧ d ≠ 107 ∧ d ≠ 77 ∧ d ≠ 71 := by
  refine ⟨?_,?_,?_,?_,?_⟩ <;> rintro rfl <;> exact absurd h (by decide)

theorem candidateMultiplier_digit {d : Byte} (h : isdigit d) : candidateMultiplier d = none := by
  simp [candidateMultiplier,not_unit_letter h]

theorem multiplier_digit {d : Byte} (h : isdigit d) (c : UInt64) : multiplier c d = some (1,1) := by
  simp [multiplier,not_unit_letter h,h]

theorem one_le_of_sizeUnits {u : Str} {m : Nat} (h : (u,m) ∈ sizeUnits) : 1 ≤ m ∧ m < 2^64 := by
  have hall : ∀ um ∈ sizeUnits, 1 ≤ um.2 ∧ um.2 < 2^64 := by decide
  exact hall _ h

section Apart

variable {s t : Str} {m : Nat}

/-- The number before a unit, times what the unit stands for. -/
def sizeOf (t : Str) (m : Nat) : Except Thrown UInt64 := do
  let ret ← stoull t
  pure (ret * UInt64.ofNat m)

theorem parse_no_unit (hlast : ∃ d ∈ s.getLast?, isdigit d) (hlength : 2 ≤ s.length) :
    parseSizeString s = some (sizeOf s 1) := by
  obtain ⟨d,hd,hdigit⟩ := hlast
  obtain ⟨rest,rfl⟩ := List.getLast?_eq_some_iff.mp hd
  obtain ⟨before,x,rfl⟩ := List.eq_nil_or_concat' rest |>.resolve_left (by rintro rfl; simp at hlength)
  have hrev : (before ++ [x] ++ [d]).reverse = d :: x :: before.reverse := by simp
  simp only [parseSizeString,hrev,candidateMultiplier_digit hdigit,hdigit,if_true,sizeOf]
  cases stoull (before ++ [x] ++ [d]) with
  | error e => cases e <;> rfl
  | ok n => simp [bind,Except.bind,pure,Except.pure]

theorem parse_letter {b : Byte} {c : UInt64} (hb : candidateMultiplier b = some c)
    (hlast : ∃ d ∈ t.getLast?, isdigit d) : parseSizeString (t ++ [b]) = some (sizeOf t 1) := by
  obtain ⟨d,hd,hdigit⟩ := hlast
  obtain ⟨rest,rfl⟩ := List.getLast?_eq_some_iff.mp hd
  have hrev : (rest ++ [d] ++ [b]).reverse = b :: d :: rest.reverse := by simp
  have htake : (rest ++ [d] ++ [b]).take ((rest ++ [d] ++ [b]).length - 1) = rest ++ [d] := by
    rw [List.length_append]
    exact List.take_left' rfl
  simp only [parseSizeString,hrev,hb,multiplier_digit hdigit,htake]
  rfl

theorem parse_letters {a b : Byte} {c n : UInt64} (hb : candidateMultiplier b = some c)
    (ha : multiplier c a = some (2,n)) :
    parseSizeString (t ++ [a,b]) = some (do let ret ← stoull t; pure (ret * n)) := by
  have hrev : (t ++ [a,b]).reverse = b :: a :: t.reverse := by simp
  have htake : (t ++ [a,b]).take ((t ++ [a,b]).length - 2) = t := by
    rw [List.length_append]
    exact List.take_left' rfl
  simp only [parseSizeString,hrev,hb,ha,htake]

theorem parse_before (h : BeforeUnit s t m) (hlength : 2 ≤ s.length) :
    parseSizeString s = some (sizeOf t m) := by
  obtain ⟨u,hu,rfl,hlast⟩ := h
  simp only [sizeUnits,List.mem_cons,Prod.mk.injEq,List.not_mem_nil,or_false] at hu
  rcases hu with ⟨rfl,rfl⟩ | ⟨rfl,rfl⟩ | ⟨rfl,rfl⟩ | ⟨rfl,rfl⟩ | ⟨rfl,rfl⟩ | ⟨rfl,rfl⟩ | ⟨rfl,rfl⟩ |
    ⟨rfl,rfl⟩ | ⟨rfl,rfl⟩
  · rw [List.append_nil] at hlength ⊢
    exact parse_no_unit (hlast (by decide)) hlength
  · exact parse_letter rfl (hlast (by decide))
  · exact parse_letter rfl (hlast (by decide))
  all_goals exact parse_letters rfl rfl

theorem parse_without (h : ¬ ∃ t m, BeforeUnit s t m) (hlength : 2 ≤ s.length) :
    parseSizeString s = some unitError := by
  obtain ⟨rest,b,rfl⟩ := List.eq_nil_or_concat' s |>.resolve_left (by rintro rfl; simp at hlength)
  obtain ⟨t,a,rfl⟩ := List.eq_nil_or_concat' rest |>.resolve_left (by rintro rfl; simp at hlength)
  have hrev : (t ++ [a] ++ [b]).reverse = b :: a :: t.reverse := by simp
  have hnot : ∀ t' u m, (u,m) ∈ sizeUnits → t ++ [a] ++ [b] = t' ++ u →
      ¬ (u.length < 2 → ∃ d ∈ t'.getLast?, isdigit d) := fun t' u m hu ht hlast =>
    h ⟨t',m,u,hu,ht,hlast⟩
  have hb : isdigit b = false := by
    by_contra hdigit
    exact hnot (t ++ [a] ++ [b]) [] 1 (by decide) (by simp) fun _ => ⟨b,by simp,by simpa using hdigit⟩
  simp only [parseSizeString,hrev,hb]
  cases hc : candidateMultiplier b with
  | none => rfl
  | some c =>
    have hletter : b = 98 ∨ b = 66 := by
      by_contra hno
      simp [candidateMultiplier,not_or.mp hno] at hc
    have ha : ∀ m, ([a,b],m) ∉ sizeUnits := fun m hm =>
      hnot t [a,b] m hm (by simp) fun hlt => absurd hlt (by simp)
    have hdigit : isdigit a = false := by
      by_contra hdigit
      refine hnot (t ++ [a]) [b] 1 ?_ rfl fun _ => ⟨a,by simp,by simpa using hdigit⟩
      rcases hletter with rfl | rfl <;> decide
    have hnone : multiplier c a = none := by
      have hk : a ≠ 107 ∧ a ≠ 77 ∧ a ≠ 71 := by
        refine ⟨?_,?_,?_⟩ <;> rintro rfl <;> rcases hletter with rfl | rfl
        · exact ha 1000 (by decide)
        · exact ha 1024 (by decide)
        · exact ha (1000^2) (by decide)
        · exact ha (1024^2) (by decide)
        · exact ha (1000^3) (by decide)
        · exact ha (1024^3) (by decide)
      simp [multiplier,hk,hdigit]
    simp only [hnone]

end Apart

theorem beforeUnit_of_sizeText {s ds u : Str} {m : Nat} (hu : (u,m) ∈ sizeUnits) (hds : Digits ds)
    (hs : s = ds ++ u) : BeforeUnit s ds m := by
  refine ⟨u,hu,hs,fun _ => ⟨ds.getLast hds.1,?_,hds.2 _ (List.getLast_mem hds.1)⟩⟩
  rw [List.getLast?_eq_some_getLast hds.1]
  rfl

theorem sizeOf_error {t : Str} {m : Nat} (h : ¬ NumberInFront t) :
    sizeOf t m = .error .invalid_argument := by
  rw [sizeOf,stoull_no_number h]
  rfl

theorem sizeOf_digits {ds : Str} {m n : Nat} (hds : Digits ds) (hm : 1 ≤ m ∧ m < 2^64) (hn : n < 2^64)
    (heq : n = decimal ds * m) : ∃ r : UInt64, sizeOf ds m = .ok r ∧ r.toNat = n := by
  have hle : decimal ds ≤ decimal ds * m := Nat.le_mul_of_pos_right _ hm.1
  have hlt : decimal ds < 2^64 := by omega
  refine ⟨UInt64.ofNat (decimal ds) * UInt64.ofNat m,?_,?_⟩
  · rw [sizeOf,stoull_digits hds hlt]
    rfl
  · rw [UInt64.toNat_mul,UInt64.toNat_ofNat_of_lt' hlt,UInt64.toNat_ofNat_of_lt' hm.2,← heq,
      Nat.mod_eq_of_lt hn]

theorem sizeOf_number {t : Str} {m : Nat} (h : NumberInFront t) :
    sizeOf t m ≠ .error .invalid_argument := by
  have hn := stoull_number h
  rw [sizeOf]
  cases hs : stoull t with
  | error e => simpa [bind,Except.bind,hs] using hn
  | ok n => simp [bind,Except.bind,pure,Except.pure]

/-- The size is right or the error is: when the string has two bytes and says a size below 2^64, or
nothing that stands before a unit begins with a number. -/
theorem parseSizeString_right (s : Str) :
    RightSize s (parseSizeString s) ↔
      2 ≤ s.length ∧ (Sized s ∨ ¬ ∃ t m, BeforeUnit s t m ∧ NumberInFront t) := by
  by_cases hlength : 2 ≤ s.length
  · simp only [hlength,true_and]
    by_cases hsized : Sized s
    · simp only [hsized,true_or,iff_true]
      obtain ⟨n,hn,ds,u,m,hu,hds,hs,heq⟩ := hsized
      obtain ⟨r,hr,hnat⟩ := sizeOf_digits hds (one_le_of_sizeUnits hu) hn heq
      rw [parse_before (beforeUnit_of_sizeText hu hds hs) hlength,hr]
      exact ⟨ds,u,m,hu,hds,hs,hnat.trans heq⟩
    · simp only [hsized,false_or]
      constructor
      · rintro hright ⟨t,m,hbefore,hnumber⟩
        rw [parse_before hbefore hlength] at hright
        cases hr : sizeOf t m with
        | ok r => rw [hr] at hright; exact hsized ⟨r.toNat,r.toNat_lt,hright⟩
        | error e =>
          rw [hr] at hright
          cases e with
          | invalid_argument => exact sizeOf_number hnumber hr
          | out_of_range => exact hright
          | threadExitThrowable => exact hright
      · intro hno
        by_cases hbefore : ∃ t m, BeforeUnit s t m
        · obtain ⟨t,m,hbefore⟩ := hbefore
          rw [parse_before hbefore hlength,sizeOf_error fun hnumber => hno ⟨t,m,hbefore,hnumber⟩]
          exact hsized
        · rw [parse_without hbefore hlength]
          exact hsized
  · simp only [hlength,false_and,iff_false]
    match s, hlength with
    | [], _ => exact id
    | [b], _ => exact id
    | _ :: _ :: _, h => simp at h

/-- A sign is accepted. -/
theorem parseSizeString_minus_one :
    ¬ RightSize (text ['-','1']) (parseSizeString (text ['-','1'])) := by
  rintro ⟨ds,u,m,-,hds,hs,-⟩
  obtain ⟨d,rest,rfl⟩ := List.exists_cons_of_ne_nil hds.1
  have hd : d = 45 := (List.cons.inj hs).1.symm
  exact absurd (hds.2 d (by simp)) (by rw [hd]; decide)

end RootHelper
