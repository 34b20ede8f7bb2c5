import Mathlib.Init

/-!
Checksums that take in one byte after the other by a table: what a run to a given end says of its
beginning, and that a change of no more bytes than the checksum has is always seen.
-/

set_option autoImplicit false

namespace Sequences

variable {w : Nat} (T : BitVec 8 → BitVec w)

def tableIndex (s : BitVec w) (b : BitVec 8) : BitVec 8 := s.setWidth 8 ^^^ b

def tableStep (s : BitVec w) (b : BitVec 8) : BitVec w := T (tableIndex s b) ^^^ s >>> 8

def tableRun (s : BitVec w) (l : List (BitVec 8)) : BitVec w := l.foldl (tableStep T) s

/-- Where the table is looked up in a run. -/
def tableIndices : BitVec w → List (BitVec 8) → List (BitVec 8)
  | _, [] => []
  | s, b :: l => tableIndex s b :: tableIndices (tableStep T s b) l

/-- The upper bytes of the entries are all different. -/
def TopDistinct : Prop := ∀ i j, T i >>> (w-8) = T j >>> (w-8) → i = j

variable {T} {s s' : BitVec w} {b b' : BitVec 8}

theorem tableRun_cons (l : List (BitVec 8)) : tableRun T s (b :: l) = tableRun T (tableStep T s b) l := rfl

theorem tableRun_append (l l' : List (BitVec 8)) :
    tableRun T s (l ++ l') = tableRun T (tableRun T s l) l' := List.foldl_append

theorem eq_of_low_high (hlow : s.setWidth 8 = s'.setWidth 8) (hhigh : s >>> 8 = s' >>> 8) : s = s' := by
  refine BitVec.eq_of_getLsbD_eq fun i hi => ?_
  by_cases hsmall : i < 8
  · have hbit := congrArg (fun x : BitVec 8 => x.getLsbD i) hlow
    simpa [hsmall] using hbit
  · have hbit := congrArg (fun x : BitVec w => x.getLsbD (i-8)) hhigh
    have hi : 8 + (i - 8) = i := by omega
    simpa [hi] using hbit

section Back

variable (hT : TopDistinct T) (hw : 8 ≤ w)

include hw

theorem tableStep_top : tableStep T s b >>> (w-8) = T (tableIndex s b) >>> (w-8) := by
  have hzero : s >>> 8 >>> (w-8) = 0#w := by
    rw [← BitVec.shiftRight_add]
    exact BitVec.ushiftRight_eq_zero (by omega)
  rw [tableStep,BitVec.ushiftRight_xor_distrib,hzero,BitVec.xor_zero]

include hT

/-- What is known of the end of a step is known one byte higher of its beginning. -/
theorem tableStep_back {k : Nat} (hk : k + 8 ≤ w) (h : tableStep T s b >>> k = tableStep T s' b' >>> k) :
    tableIndex s b = tableIndex s' b' ∧ s >>> (k+8) = s' >>> (k+8) := by
  have htop : tableStep T s b >>> (w-8) = tableStep T s' b' >>> (w-8) := by
    have hsplit : w - 8 = k + (w-8-k) := by omega
    rw [hsplit,BitVec.shiftRight_add,BitVec.shiftRight_add,h]
  rw [tableStep_top hw,tableStep_top hw] at htop
  have hindex := hT _ _ htop
  refine ⟨hindex,?_⟩
  rw [tableStep,tableStep,hindex,BitVec.ushiftRight_xor_distrib,BitVec.ushiftRight_xor_distrib,
    BitVec.xor_right_inj,← BitVec.shiftRight_add,← BitVec.shiftRight_add,Nat.add_comm] at h
  exact h

theorem tableStep_left_inj (h : tableStep T s b = tableStep T s' b) : s = s' := by
  have hall : tableStep T s b >>> 0 = tableStep T s' b >>> 0 := by rw [h]
  obtain ⟨hindex,hhigh⟩ := tableStep_back hT hw (by omega) hall
  rw [tableIndex,tableIndex,BitVec.xor_left_inj] at hindex
  exact eq_of_low_high hindex hhigh

theorem tableRun_left_inj {l : List (BitVec 8)} (h : tableRun T s l = tableRun T s' l) : s = s' := by
  induction l generalizing s s' with
  | nil => exact h
  | cons b l ih => exact tableStep_left_inj hT hw (ih h)

theorem tableRun_back {x y : List (BitVec 8)} {k : Nat} (hlen : x.length = y.length)
    (hfit : k + 8*x.length ≤ w) (h : tableRun T s x >>> k = tableRun T s' y >>> k) :
    tableIndices T s x = tableIndices T s' y ∧ s >>> (k + 8*x.length) = s' >>> (k + 8*x.length) := by
  induction x generalizing y s s' with
  | nil =>
    obtain rfl := List.length_eq_zero_iff.mp hlen.symm
    exact ⟨rfl,h⟩
  | cons b x ih =>
    cases y with
    | nil => cases hlen
    | cons b' y =>
      rw [List.length_cons] at hfit
      obtain ⟨hrest,hstate⟩ := ih (Nat.succ.inj hlen) (by omega) h
      obtain ⟨hindex,hstate⟩ := tableStep_back hT hw (by omega) hstate
      refine ⟨?_,hstate⟩
      rw [tableIndices,tableIndices,hindex,hrest]

end Back

theorem eq_of_tableIndices {x y : List (BitVec 8)} (h : tableIndices T s x = tableIndices T s y) : x = y := by
  induction x generalizing y s with
  | nil =>
    cases y with
    | nil => rfl
    | cons b' y => cases h
  | cons b x ih =>
    cases y with
    | nil => cases h
    | cons b' y =>
      obtain ⟨hindex,hrest⟩ := List.cons.inj h
      obtain rfl : b = b' := (BitVec.xor_right_inj _).mp hindex
      rw [ih hrest]

/-- Two runs that differ in no more bytes than there are in a state, one behind the other, have different
ends. -/
theorem eq_of_tableRun (hT : TopDistinct T) (hw : 8 ≤ w) {front x y back : List (BitVec 8)}
    (hlen : x.length = y.length) (hfit : 8*x.length ≤ w)
    (h : tableRun T s (front ++ (x ++ back)) = tableRun T s (front ++ (y ++ back))) : x = y := by
  simp only [tableRun_append] at h
  have hends := tableRun_left_inj hT hw h
  have hall : tableRun T (tableRun T s front) x >>> 0 = tableRun T (tableRun T s front) y >>> 0 := by
    rw [hends]
  exact eq_of_tableIndices (tableRun_back hT hw hlen (by omega) hall).1

end Sequences
