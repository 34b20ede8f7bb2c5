import Mathlib.Data.List.Basic
import Mathlib.Data.List.Infix
import Mathlib.Data.List.Nodup

/-!
The search of a tree with a stack, its nodes named by the ways that lead to them. What comes off the
stack is the tree in preorder: each node once, and before what is below it.
-/

set_option autoImplicit false

namespace Preorder

section Trees

variable {ν : Type} (kids : List ν → List ν)

/-- The way `rel` goes down from `p`. -/
def Leads : List ν → List ν → Prop
  | _, [] => True
  | p, c :: rel => c ∈ kids p ∧ Leads (p ++ [c]) rel

/-- No way from `p` is longer. -/
def Shallow (n : Nat) (p : List ν) : Prop := ∀ rel, Leads kids p rel → rel.length ≤ n

/-- What is below `p`, down to a depth. -/
def below : Nat → List ν → List (List ν)
  | 0, _ => []
  | n+1, p => (kids p).flatMap fun c => (p ++ [c]) :: below n (p ++ [c])

/-- The nodes come off the stack `S` one after the other, each leaving its children there; what is left
is `S'`. -/
inductive Visits : List (List ν) → List (List ν) → List (List ν) → Prop
  | start (S : List (List ν)) : Visits S [] S
  | next {p : List ν} {S l S' : List (List ν)} :
      Visits ((kids p).map (fun c => p ++ [c]) ++ S) l S' → Visits (p :: S) (p :: l) S'

end Trees

variable {ν : Type} {kids : List ν → List ν} {n m : Nat} {p q rel : List ν} {c : ν}
  {S S' T l l' : List (List ν)}

theorem leads_append {rel' : List ν} :
    Leads kids p (rel ++ rel') ↔ Leads kids p rel ∧ Leads kids (p ++ rel) rel' := by
  induction rel generalizing p with
  | nil => simp [Leads]
  | cons c rel ih => simp [Leads,ih,and_assoc]

theorem leads_concat : Leads kids p (rel ++ [c]) ↔ Leads kids p rel ∧ c ∈ kids (p ++ rel) := by
  rw [leads_append]
  simp [Leads]

theorem leads_iff : Leads kids p rel ↔ ∀ q c rest, rel = q ++ c :: rest → c ∈ kids (p ++ q) := by
  induction rel generalizing p with
  | nil => simp [Leads]
  | cons d rel ih =>
    rw [Leads,ih]
    constructor
    · rintro ⟨hd,hrel⟩ q c rest heq
      cases q with
      | nil =>
        obtain ⟨rfl,rfl⟩ := List.cons.inj heq
        rwa [List.append_nil]
      | cons e q =>
        obtain ⟨rfl,rfl⟩ := List.cons.inj heq
        have hc := hrel q c rest rfl
        rwa [List.append_assoc] at hc
    · intro hall
      refine ⟨by simpa using hall [] d rel rfl,fun q c rest heq => ?_⟩
      have hc := hall (d :: q) c rest (by rw [heq]; rfl)
      rwa [List.append_assoc]

theorem Shallow.child (h : Shallow kids (n+1) p) (hc : c ∈ kids p) : Shallow kids n (p ++ [c]) := by
  intro rel hrel
  have hlen := h (c :: rel) ⟨hc,hrel⟩
  simpa using hlen

theorem Shallow.leaf (h : Shallow kids 0 p) : kids p = [] := by
  rw [List.eq_nil_iff_forall_not_mem]
  intro c hc
  have hlen := h [c] ⟨hc,trivial⟩
  simp at hlen

theorem Shallow.mono (h : Shallow kids n p) (hle : n ≤ m) : Shallow kids m p :=
  fun rel hrel => (h rel hrel).trans hle

theorem mem_below : q ∈ below kids n p ↔
    ∃ rel, rel ≠ [] ∧ rel.length ≤ n ∧ Leads kids p rel ∧ q = p ++ rel := by
  induction n generalizing p with
  | zero =>
    simp only [below,List.not_mem_nil,false_iff]
    rintro ⟨rel,hne,hlen,_⟩
    exact hne (List.length_eq_zero_iff.mp (Nat.le_zero.mp hlen))
  | succ n ih =>
    simp only [below,List.mem_flatMap,List.mem_cons]
    constructor
    · rintro ⟨c,hc,rfl | h⟩
      · exact ⟨[c],by simp,by simp,⟨hc,trivial⟩,rfl⟩
      · obtain ⟨rel,_,hlen,hrel,rfl⟩ := ih.mp h
        exact ⟨c :: rel,by simp,by simpa using hlen,⟨hc,hrel⟩,by simp⟩
    · rintro ⟨rel,hne,hlen,hrel,rfl⟩
      cases rel with
      | nil => exact absurd rfl hne
      | cons c rel =>
        refine ⟨c,hrel.1,?_⟩
        cases rel with
        | nil => exact .inl rfl
        | cons d rel =>
          refine .inr (ih.mpr ⟨d :: rel,by simp,by simpa using hlen,hrel.2,by simp⟩)

theorem below_eq (h : Shallow kids n p) (hle : n ≤ m) : below kids m p = below kids n p := by
  induction n generalizing m p with
  | zero =>
    cases m with
    | zero => rfl
    | succ m => simp [below,h.leaf]
  | succ n ih =>
    cases m with
    | zero => omega
    | succ m =>
      rw [below,below]
      refine List.flatMap_congr fun c hc => ?_
      rw [ih (h.child hc) (by omega)]

theorem below_same (h : Shallow kids n p) (h' : Shallow kids m p) : below kids n p = below kids m p :=
  (below_eq h (Nat.le_max_left n m)).symm.trans (below_eq h' (Nat.le_max_right n m))

theorem below_leaf (h : kids p = []) : below kids n p = [] := by
  cases n with
  | zero => rfl
  | succ n => rw [below,h,List.flatMap_nil]

theorem below_one : below kids 1 p = (kids p).map fun c => p ++ [c] := by
  simp only [below]
  exact List.map_eq_flatMap.symm

theorem length_kids_le : (kids p).length ≤ (below kids (n+1) p).length := by
  rw [below]
  induction kids p with
  | nil => exact Nat.le_refl _
  | cons c cs ih =>
    rw [List.flatMap_cons,List.length_append,List.length_cons,List.length_cons]
    omega

theorem length_below_le (hc : c ∈ kids p) :
    (below kids n (p ++ [c])).length ≤ (below kids (n+1) p).length := by
  have hsub := List.sublist_flatten_of_mem
    (List.mem_map_of_mem (f := fun c => (p ++ [c]) :: below kids n (p ++ [c])) hc)
  exact ((List.sublist_cons_self _ _).trans hsub).length_le

theorem leads_cons {kids' : List ν → List ν} (h : ∀ q, kids' q = kids (c :: q)) :
    Leads kids' p rel ↔ Leads kids (c :: p) rel := by
  induction rel generalizing p with
  | nil => rfl
  | cons d rel ih =>
    rw [Leads,Leads,h,ih]
    rfl

theorem below_cons {kids' : List ν → List ν} (h : ∀ q, kids' q = kids (c :: q)) :
    (below kids' n p).map (c :: ·) = below kids n (c :: p) := by
  induction n generalizing p with
  | zero => rfl
  | succ n ih =>
    rw [below,below,List.map_flatMap,h]
    refine List.flatMap_congr fun d _ => ?_
    rw [List.map_cons,ih]
    rfl

/-- Where no name is listed twice, no node comes twice and none comes behind one below it. -/
theorem pairwise_below (h : ∀ rel, Leads kids p rel → (kids (p ++ rel)).Nodup) :
    (below kids n p).Pairwise fun a b => ¬ b <+: a := by
  induction n generalizing p with
  | zero => exact List.Pairwise.nil
  | succ n ih =>
    rw [below,List.pairwise_flatMap]
    have hat : ∀ {c q}, q ∈ (p ++ [c]) :: below kids n (p ++ [c]) → p ++ [c] <+: q := by
      intro c q hq
      rcases List.mem_cons.mp hq with rfl | hq
      · exact List.prefix_rfl
      · obtain ⟨rel,_,_,_,rfl⟩ := mem_below.mp hq
        exact List.prefix_append _ _
    constructor
    · intro c hc
      refine List.pairwise_cons.mpr ⟨fun q hq hpre => ?_,ih fun rel hrel => ?_⟩
      · obtain ⟨rel,hne,_,_,rfl⟩ := mem_below.mp hq
        have hlen := hpre.length_le
        have hpos := List.length_pos_of_ne_nil hne
        simp only [List.length_append] at hlen
        omega
      · have hnodup := h (c :: rel) ⟨hc,hrel⟩
        simpa using hnodup
    · -- the nodes below two children part where their names differ
      have hnames : (kids p).Nodup := by simpa using h [] trivial
      refine hnames.imp fun {c d} hne a ha b hb hpre => ?_
      have hboth := List.prefix_or_prefix_of_prefix ((hat hb).trans hpre) (hat ha)
      have heq : p ++ [d] = p ++ [c] := hboth.elim (fun hpre => hpre.eq_of_length (by simp))
        fun hpre => (hpre.eq_of_length (by simp)).symm
      simp only [List.append_cancel_left_eq,List.cons.injEq,and_true] at heq
      exact hne heq.symm

/-- What comes off the upper part of a stack leaves the lower part as it is. -/
theorem Visits.append {T' : List (List ν)} (h : Visits kids S l S') (h' : Visits kids (S' ++ T) l' T') :
    Visits kids (S ++ T) (l ++ l') T' := by
  induction h with
  | start S => exact h'
  | next _ ih =>
    have hrest := ih h'
    rw [List.append_assoc] at hrest
    exact .next hrest

theorem visits_one (h : Shallow kids n p) : Visits kids [p] (p :: below kids n p) [] := by
  induction n generalizing p with
  | zero =>
    refine .next ?_
    rw [h.leaf]
    exact .start []
  | succ n ih =>
    have hall : ∀ cs : List ν, (∀ c ∈ cs, c ∈ kids p) → Visits kids (cs.map fun c => p ++ [c])
        (cs.flatMap fun c => (p ++ [c]) :: below kids n (p ++ [c])) [] := by
      intro cs hcs
      induction cs with
      | nil => exact .start []
      | cons c cs ihcs =>
        rw [List.map_cons,List.flatMap_cons,← List.singleton_append]
        refine (ih (h.child (hcs c List.mem_cons_self))).append ?_
        exact ihcs fun d hd => hcs d (List.mem_cons_of_mem c hd)
    refine .next ?_
    rw [List.append_nil]
    exact hall (kids p) fun _ hc => hc

/-- All that is below `p` comes off the stack of its children. -/
theorem visits_below (h : Shallow kids n p) :
    Visits kids ((kids p).map fun c => p ++ [c]) (below kids n p) [] := by
  have hone := visits_one h
  cases hone with
  | next hrest => rwa [List.append_nil] at hrest

theorem Visits.rest {L : List (List ν)} (h : Visits kids S l S') (hL : Visits kids S L []) :
    ∃ r, L = l ++ r ∧ Visits kids S' r [] := by
  induction h generalizing L with
  | start S => exact ⟨L,rfl,hL⟩
  | next _ ih =>
    cases hL with
    | next hL =>
      obtain ⟨r,rfl,hr⟩ := ih hL
      exact ⟨r,rfl,hr⟩

end Preorder
