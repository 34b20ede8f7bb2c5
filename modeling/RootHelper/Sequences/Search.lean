import Mathlib.Data.List.Infix
import Mathlib.Tactic.Common

/-!
The first place where one list stands in another, its elements compared by a relation of the
caller's, and what becomes of it when the other list grows at its end.
-/

set_option autoImplicit false

namespace Sequences

variable {α : Type}

def heads (same : α → α → Bool) : List α → List α → Bool
  | [], _ => true
  | _ :: _, [] => false
  | a :: needle, b :: hay => same b a && heads same needle hay

def search (same : α → α → Bool) (needle : List α) : List α → Option Nat
  | [] => if needle = [] then some 0 else none
  | b :: hay =>
    if heads same needle (b :: hay) then some 0 else (search same needle hay).map (· + 1)

section

variable {same : α → α → Bool} {needle hay rest : List α} {i : Nat}

theorem heads_append (h : heads same needle hay = true) : heads same needle (hay ++ rest) = true := by
  induction needle generalizing hay with
  | nil => rfl
  | cons a needle ih =>
    cases hay with
    | nil => simp [heads] at h
    | cons b hay =>
      simp only [heads,Bool.and_eq_true] at h
      simp [heads,h.1,ih h.2]

theorem heads_of_append (h : heads same needle (hay ++ rest) = true)
    (hlen : needle.length ≤ hay.length) : heads same needle hay = true := by
  induction needle generalizing hay with
  | nil => rfl
  | cons a needle ih =>
    cases hay with
    | nil => simp at hlen
    | cons b hay =>
      simp only [List.cons_append,heads,Bool.and_eq_true] at h
      simp only [List.length_cons] at hlen
      simp [heads,h.1,ih h.2 (by omega)]

theorem length_of_heads (h : heads same needle hay = true) : needle.length ≤ hay.length := by
  induction needle generalizing hay with
  | nil => simp
  | cons a needle ih =>
    cases hay with
    | nil => simp [heads] at h
    | cons b hay =>
      simp only [heads,Bool.and_eq_true] at h
      have := ih h.2
      simp only [List.length_cons]
      omega

theorem heads_at (h : heads same needle hay = true) {j : Nat} {a : α} (ha : needle[j]? = some a) :
    ∃ b, hay[j]? = some b ∧ same b a = true := by
  induction needle generalizing hay j with
  | nil => simp at ha
  | cons a' needle ih =>
    cases hay with
    | nil => simp [heads] at h
    | cons b hay =>
      simp only [heads,Bool.and_eq_true] at h
      cases j with
      | zero =>
        obtain rfl := Option.some.inj ha
        exact ⟨b,rfl,h.1⟩
      | succ j => exact ih h.2 ha

theorem search_heads (h : search same needle hay = some i) :
    heads same needle (hay.drop i) = true := by
  induction hay generalizing i with
  | nil =>
    unfold search at h
    split_ifs at h with hneedle
    rw [hneedle]
    rfl
  | cons b hay ih =>
    unfold search at h
    split_ifs at h with hhead
    · obtain rfl := Option.some.inj h
      exact hhead
    · obtain ⟨j,hj,rfl⟩ := Option.map_eq_some_iff.mp h
      exact ih hj

theorem search_bound (h : search same needle hay = some i) : i + needle.length ≤ hay.length := by
  induction hay generalizing i with
  | nil =>
    unfold search at h
    split_ifs at h with hneedle
    obtain rfl := Option.some.inj h
    simp [hneedle]
  | cons b hay ih =>
    unfold search at h
    split_ifs at h with hhead
    · obtain rfl := Option.some.inj h
      simpa using length_of_heads hhead
    · obtain ⟨j,hj,rfl⟩ := Option.map_eq_some_iff.mp h
      have := ih hj
      simp only [List.length_cons]
      omega

theorem search_append (h : search same needle hay = some i) :
    search same needle (hay ++ rest) = some i := by
  induction hay generalizing i with
  | nil =>
    unfold search at h
    split_ifs at h with hneedle
    obtain rfl := Option.some.inj h
    subst hneedle
    cases rest <;> simp [search,heads]
  | cons b hay ih =>
    unfold search at h
    split_ifs at h with hhead
    · obtain rfl := Option.some.inj h
      have hlonger : heads same needle (b :: (hay ++ rest)) = true := heads_append hhead
      simp [search,hlonger]
    · obtain ⟨j,hj,rfl⟩ := Option.map_eq_some_iff.mp h
      have hne : heads same needle (b :: (hay ++ rest)) = false := by
        have hfits := search_bound hj
        refine Bool.eq_false_iff.mpr fun hlonger => hhead ?_
        exact heads_of_append hlonger (by simp only [List.length_cons]; omega)
      simp [search,hne,ih hj]

theorem search_of_append (h : search same needle (hay ++ rest) = some i)
    (hlen : i + needle.length ≤ hay.length) : search same needle hay = some i := by
  induction hay generalizing i with
  | nil =>
    rw [List.length_nil] at hlen
    have hneedle : needle = [] := List.length_eq_zero_iff.mp (by omega)
    have hi : i = 0 := by omega
    simp [search,hneedle,hi]
  | cons b hay ih =>
    rw [List.cons_append] at h
    unfold search at h
    split_ifs at h with hhead
    · obtain rfl := Option.some.inj h
      have hshort : heads same needle (b :: hay) = true :=
        heads_of_append hhead (by simpa using hlen)
      simp [search,hshort]
    · obtain ⟨j,hj,rfl⟩ := Option.map_eq_some_iff.mp h
      have hne : heads same needle (b :: hay) = false :=
        Bool.eq_false_iff.mpr fun hshort => hhead (heads_append hshort)
      have hrest := ih hj (by simp only [List.length_cons] at hlen; omega)
      simp [search,hne,hrest]

theorem search_of_heads (h : heads same needle hay = true) : search same needle hay = some 0 := by
  cases hay with
  | nil =>
    cases needle with
    | nil => rfl
    | cons a needle => simp [heads] at h
  | cons b hay => rw [search,if_pos h]

theorem heads_map {β : Type} [BEq β] [LawfulBEq β] {f : α → β} {start : List α}
    (h : start.map f = needle.map f) :
    heads (fun a b => f a == f b) needle (start ++ rest) = true := by
  induction needle generalizing start with
  | nil => rfl
  | cons a needle ih =>
    cases start with
    | nil => cases h
    | cons b start =>
      rw [List.map_cons,List.map_cons,List.cons.injEq] at h
      simp [heads,h.1,ih h.2]

theorem search_skip {sep : List α} (hne : needle ≠ [])
    (hsep : ∀ s ∈ sep, ∀ a ∈ needle, same s a = false) :
    search same needle (sep ++ rest) = (search same needle rest).map (· + sep.length) := by
  induction sep with
  | nil => simp
  | cons s sep ih =>
    rw [List.forall_mem_cons] at hsep
    have hhead : heads same needle (s :: (sep ++ rest)) = false := by
      obtain ⟨a,needle,rfl⟩ := List.exists_cons_of_ne_nil hne
      simp [heads,hsep.1 a (by simp)]
    rw [List.cons_append,search,hhead,ih hsep.2]
    simp [Option.map_map,Function.comp_def,Nat.add_assoc]

/-- What is looked for is in the first line or behind it, never across its end. -/
theorem search_line {sep : List α} (hne : needle ≠ []) (hend : sep ≠ [])
    (hsep : ∀ s ∈ sep, ∀ a ∈ needle, same s a = false) (hnone : search same needle hay = none) :
    search same needle (hay ++ (sep ++ rest)) =
      (search same needle rest).map (· + (hay.length + sep.length)) := by
  induction hay with
  | nil =>
    rw [List.nil_append,search_skip hne hsep]
    simp
  | cons b hay ih =>
    rw [search] at hnone
    split_ifs at hnone with hhead
    have hrest : search same needle hay = none := by simpa using hnone
    have hhead' : heads same needle (b :: (hay ++ (sep ++ rest))) = false := by
      by_contra hheads
      rw [Bool.not_eq_false] at hheads
      rcases Nat.lt_or_ge (b :: hay).length needle.length with hlong | hshort
      · -- the element beside the separator's first one
        obtain ⟨s,sep',rfl⟩ := List.exists_cons_of_ne_nil hend
        obtain ⟨b',hb',hsame⟩ := heads_at hheads (List.getElem?_eq_getElem hlong)
        rw [← List.cons_append,List.getElem?_append_right (Nat.le_refl _)] at hb'
        simp only [Nat.sub_self,List.cons_append,List.getElem?_cons_zero,Option.some.injEq] at hb'
        subst hb'
        rw [hsep s (by simp) _ (List.getElem_mem hlong)] at hsame
        cases hsame
      · have hwhole : heads same needle ((b :: hay) ++ (sep ++ rest)) = true := hheads
        exact hhead (heads_of_append hwhole hshort)
    rw [List.cons_append,search,hhead',ih hrest]
    simp [Option.map_map,Function.comp_def]
    congr 1
    funext n
    omega

end

section

variable [BEq α] [LawfulBEq α] {needle hay : List α} {i : Nat}

theorem heads_beq : heads (· == ·) needle hay = true ↔ needle <+: hay := by
  induction needle generalizing hay with
  | nil => simp [heads]
  | cons a needle ih =>
    cases hay with
    | nil => simp [heads]
    | cons b hay =>
      simp only [heads,Bool.and_eq_true,beq_iff_eq,ih,List.cons_prefix_cons]
      exact and_congr_left' eq_comm

theorem search_beq : search (· == ·) needle hay = some i ↔
    needle <+: hay.drop i ∧ i ≤ hay.length ∧ ∀ j < i, ¬ needle <+: hay.drop j := by
  induction hay generalizing i with
  | nil =>
    unfold search
    split_ifs with hneedle
    · subst hneedle
      constructor
      · intro h
        obtain rfl := Option.some.inj h
        simp
      · rintro ⟨_,hle,_⟩
        rw [List.length_nil,Nat.le_zero] at hle
        rw [hle]
    · simpa using fun h _ => absurd h hneedle
  | cons b hay ih =>
    unfold search
    split_ifs with hhead
    · have hstart : needle <+: b :: hay := heads_beq.mp hhead
      constructor
      · intro h
        obtain rfl := Option.some.inj h
        exact ⟨hstart,by simp,by simp⟩
      · rintro ⟨_,_,hnone⟩
        cases i with
        | zero => rfl
        | succ i => exact absurd hstart (hnone 0 (by omega))
    · have hstart : ¬ needle <+: b :: hay := fun h => hhead (heads_beq.mpr h)
      rw [Option.map_eq_some_iff]
      constructor
      · rintro ⟨j,hj,rfl⟩
        obtain ⟨hfound,hle,hnone⟩ := ih.mp hj
        refine ⟨by simpa using hfound,by simpa using hle,fun k hk => ?_⟩
        cases k with
        | zero => exact hstart
        | succ k => exact hnone k (by omega)
      · rintro ⟨hfound,hle,hnone⟩
        cases i with
        | zero => exact absurd hfound hstart
        | succ i =>
          exact ⟨i,ih.mpr ⟨hfound,by simpa using hle,fun k hk => hnone (k+1) (by omega)⟩,rfl⟩

theorem search_eq_none : search (· == ·) needle hay = none ↔ ¬ needle <:+: hay := by
  induction hay with
  | nil => simp [search]
  | cons b hay ih =>
    rw [List.infix_cons_iff,not_or,← ih,← heads_beq,search]
    split_ifs with hhead
    · simp [hhead]
    · simp [hhead]

/-- It is found at the end of `pre ++ needle` if it is nowhere before. -/
theorem search_first {pre rest : List α} (hne : needle ≠ [])
    (hfirst : ¬ needle <:+: (pre ++ needle).dropLast) :
    search (· == ·) needle (pre ++ needle ++ rest) = some pre.length := by
  have hpos : 0 < needle.length := List.length_pos_iff.mpr hne
  refine search_beq.mpr ⟨by simp,by simp,fun j hj hstart => hfirst ?_⟩
  have hcut : (pre ++ needle).dropLast =
      (pre ++ needle ++ rest).take (pre.length + needle.length - 1) := by
    have hle : pre.length + needle.length - 1 ≤ (pre ++ needle).length := by
      rw [List.length_append]
      omega
    rw [List.take_append_of_le_length hle,List.dropLast_eq_take,List.length_append]
  have hhere : needle <+: ((pre ++ needle ++ rest).take (pre.length + needle.length - 1)).drop j := by
    rw [List.drop_take]
    exact List.prefix_take_iff.mpr ⟨hstart,by omega⟩
  rw [hcut]
  exact hhere.isInfix.trans (List.drop_suffix _ _).isInfix

end

end Sequences
