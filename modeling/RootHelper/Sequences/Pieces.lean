import RootHelper.Sequences.Search

/-!
Pieces that each end with a separator, up to an empty piece: how they are put behind each other, and how
they are found again.
-/

set_option autoImplicit false

namespace Sequences

variable {α : Type} [DecidableEq α]

def joinPieces (sep : List α) (pieces : List (List α)) : List α := pieces.flatMap (· ++ sep) ++ sep

/-- The pieces up to the empty one, and what stands behind it. -/
def readPieces (sep : List α) : Nat → List α → Option (List (List α) × List α)
  | 0, _ => none
  | turns+1, s => do
    let k ← search (· == ·) sep s
    let rest := s.drop (k + sep.length)
    if k = 0 then some ([],rest)
    else do
      let (pieces,behind) ← readPieces sep turns rest
      some (s.take k :: pieces,behind)

def Avoids (sep piece : List α) : Prop := ∀ b ∈ piece, b ∉ sep

variable {sep : List α} (hsep : sep ≠ [])

include hsep

theorem search_piece {piece rest : List α} (h : Avoids sep piece) :
    search (· == ·) sep (piece ++ (sep ++ rest)) = some piece.length := by
  have hhere : search (· == ·) sep (sep ++ rest) = some 0 := by
    refine search_beq.mpr ⟨by simp,Nat.zero_le _,fun j hj => absurd hj (Nat.not_lt_zero j)⟩
  rw [search_skip hsep fun b hb a ha => by
    rw [beq_eq_false_iff_ne]
    exact fun he => h b hb (he ▸ ha),hhere]
  simp

theorem readPieces_join {pieces : List (List α)} (h : ∀ piece ∈ pieces, piece ≠ [] ∧ Avoids sep piece)
    {turns : Nat} (hturns : pieces.length < turns) (rest : List α) :
    readPieces sep turns (joinPieces sep pieces ++ rest) = some (pieces,rest) := by
  induction pieces generalizing turns with
  | nil =>
    cases turns with
    | zero => omega
    | succ turns =>
      have hfind := @search_piece α _ sep hsep [] rest fun b hb => by cases hb
      rw [List.nil_append] at hfind
      simp [readPieces,joinPieces,hfind]
  | cons piece pieces ih =>
    rw [List.forall_mem_cons] at h
    rw [List.length_cons] at hturns
    cases turns with
    | zero => omega
    | succ turns =>
      have hwhole : joinPieces sep (piece :: pieces) ++ rest =
          piece ++ (sep ++ (joinPieces sep pieces ++ rest)) := by
        simp [joinPieces]
      have hfind : search (· == ·) sep (piece ++ (sep ++ (joinPieces sep pieces ++ rest))) =
          some piece.length := search_piece hsep h.1.2
      have hdrop : (piece ++ (sep ++ (joinPieces sep pieces ++ rest))).drop (piece.length + sep.length) =
          joinPieces sep pieces ++ rest := by
        rw [← List.append_assoc,← List.length_append,List.drop_left]
      have hsome : piece.length ≠ 0 := fun hnil => h.1.1 (List.length_eq_zero_iff.mp hnil)
      rw [hwhole,readPieces,hfind]
      simp only [Option.bind_eq_bind,Option.bind_some]
      rw [if_neg hsome,hdrop,ih h.2 (by omega),List.take_left]
      rfl

end Sequences
