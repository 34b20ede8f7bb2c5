import RootHelper.Posix.Paths

/-!
Where a spelled path stays with respect to the directory it starts in: how far its `..` climb, and
which of its names are still there at the end.
-/

set_option autoImplicit false

namespace Posix

/-- How many of the `..` find no name to take back. -/
def climbs : List Name → Nat
  | [] => 0
  | c :: cs =>
    if c = dotName then climbs cs else if c = dotdotName then climbs cs + 1 else climbs cs - 1

/-- The names that no later `..` takes back. -/
def kept : List Name → List Name
  | [] => []
  | c :: cs =>
    if c = dotName ∨ c = dotdotName ∨ climbs cs ≠ 0 then kept cs else c :: kept cs

theorem dotName_ne_dotdotName : dotName ≠ dotdotName := by decide

theorem normalize_eq (p : Path) (cs : List Name) :
    normalize p cs = p.take (p.length - climbs cs) ++ kept cs := by
  induction cs generalizing p with
  | nil => simp [climbs,kept]
  | cons c cs ih =>
    rw [normalize_cons,ih]
    by_cases hdot : c = dotName
    · simp [advance,climbs,kept,hdot]
    · by_cases hup : c = dotdotName
      · have hmin : min (min (p.length - 1) p.length - climbs cs) (p.length - 1) =
            p.length - (climbs cs + 1) := by omega
        have hne := dotName_ne_dotdotName.symm
        simp only [advance,climbs,kept,hup,hne,if_true,if_false,or_true,true_or,
          List.dropLast_eq_take,List.length_take,List.take_take,hmin]
      · simp only [advance,climbs,kept,hdot,hup,if_false,false_or,List.length_append,
          List.length_singleton]
        by_cases hclimbs : climbs cs = 0
        · have hfull : (p ++ [c]).take (p.length + 1) = p ++ [c] :=
            List.take_of_length_le (by simp)
          simp [hclimbs,hfull]
        · have hlen : p.length + 1 - climbs cs = p.length - (climbs cs - 1) := by omega
          have hle : p.length + 1 - climbs cs ≤ p.length := by omega
          rw [List.take_append_of_le_length hle,hlen,if_pos hclimbs]

theorem prefix_normalize_of_climbs {p : Path} {cs : List Name} (h : climbs cs = 0) :
    p <+: normalize p cs := by
  rw [normalize_eq,h]
  simp

/-- The walk from below `p ++ [b]` ends below `p ++ [a]` exactly when it never leaves and the two
names are one, or when it leaves and the names of `p ++ [a]` it left are named again. -/
theorem prefix_normalize_concat_iff (p : Path) (a b : Name) (cs : List Name) :
    p ++ [a] <+: normalize (p ++ [b]) cs ↔
      climbs cs = 0 ∧ a = b ∨
        0 < climbs cs ∧ (p ++ [a]).drop ((p ++ [a]).length - climbs cs) <+: kept cs := by
  rw [normalize_eq]
  by_cases hclimbs : climbs cs = 0
  · have hfull : (p ++ [b]).take ((p ++ [b]).length - climbs cs) = p ++ [b] := by
      rw [hclimbs,Nat.sub_zero,List.take_length]
    rw [hfull,List.append_assoc,List.prefix_append_right_inj]
    simp [hclimbs]
  · -- what is left of the start is left of `p` as well
    have hlen : (p ++ [b]).length - climbs cs = (p ++ [a]).length - climbs cs := by simp
    have hle : (p ++ [a]).length - climbs cs ≤ p.length := by
      simp only [List.length_append,List.length_singleton]
      omega
    have hsame : (p ++ [b]).take ((p ++ [b]).length - climbs cs) =
        (p ++ [a]).take ((p ++ [a]).length - climbs cs) := by
      rw [hlen,List.take_append_of_le_length hle,List.take_append_of_le_length hle]
    have hsplit := List.take_append_drop ((p ++ [a]).length - climbs cs) (p ++ [a])
    have hpos : 0 < climbs cs := by omega
    have hcut : p ++ [a] <+: (p ++ [a]).take ((p ++ [a]).length - climbs cs) ++ kept cs ↔
        (p ++ [a]).drop ((p ++ [a]).length - climbs cs) <+: kept cs := by
      nth_rewrite 1 [← hsplit]
      exact List.prefix_append_right_inj _
    rw [hsame,hcut]
    simp only [hclimbs,hpos,false_and,true_and,false_or]

/-- `t` names what `d` names or something below it, as far as the strings tell. -/
def Inside (cwd : Path) (d t : Str) : Prop := resolve cwd (cstr d) <+: resolve cwd (cstr t)

instance (cwd : Path) (d t : Str) : Decidable (Inside cwd d t) :=
  inferInstanceAs (Decidable (_ <+: _))

theorem inside_append {cwd : Path} {d r : Str} (hd : NulFree d) (hne : d ≠ [])
    (hclimbs : climbs (components (cstr r)) = 0) : Inside cwd d (d ++ slash :: r) := by
  have hcut : cstr (d ++ slash :: r) = d ++ slash :: cstr r := by
    rw [cstr_append_of_nulFree hd]
    rfl
  have habs : absolute (d ++ slash :: cstr r) ↔ absolute d := by
    unfold absolute
    rw [List.head?_append_of_ne_nil _ hne]
  rw [Inside,hcut,cstr_of_nulFree hd,resolve,resolve,components_append_slash,normalize_append]
  simp only [habs]
  exact prefix_normalize_of_climbs hclimbs

def spell (p : Path) : Str := if p = [] then [slash] else p.flatMap (slash :: ·)

/-- What `realpath` answers. -/
structure Canonical (d : Str) : Prop where
  proper : ∀ c ∈ components d, ProperName c
  spelled : d = spell (components d)

theorem components_flatMap {p : Path} (h : ∀ c ∈ p, ProperName c) :
    components (p.flatMap (slash :: ·)) = p := by
  induction p using List.reverseRecOn with
  | nil => rfl
  | append_singleton p c ih =>
    have hp : components (p.flatMap (slash :: ·)) = p := ih fun d hd => h d (by simp [hd])
    rw [List.flatMap_append,List.flatMap_singleton,components_concat_name _ (h c (by simp)),hp]

theorem Canonical.absolute {d : Str} (h : Canonical d) : absolute d := by
  rw [h.spelled,spell]
  split_ifs with hnil
  · rfl
  · cases hcs : components d with
    | nil => exact absurd hcs hnil
    | cons c cs => rfl

theorem Canonical.split {d : Str} (h : Canonical d) (hroot : d ≠ [slash]) :
    ∃ x c, d = x ++ slash :: c ∧ components d = components x ++ [c] ∧ ProperName c ∧
      ∀ b ∈ components x, ProperName b := by
  have hne : components d ≠ [] := by
    intro hnil
    exact hroot (by rw [h.spelled,hnil]; rfl)
  obtain ⟨cs,c,hcs⟩ := List.eq_nil_or_concat' (components d) |>.resolve_left hne
  have hproper : ∀ b ∈ cs ++ [c], ProperName b := by
    rw [← hcs]
    exact h.proper
  have hcut : ∀ b ∈ cs, ProperName b := fun b hb => hproper b (by simp [hb])
  refine ⟨cs.flatMap (slash :: ·),c,?_,?_,hproper c (by simp),?_⟩
  · rw [h.spelled,spell,if_neg hne,hcs,List.flatMap_append,List.flatMap_singleton]
  · rw [components_flatMap hcut,hcs]
  · rwa [components_flatMap hcut]

theorem components_name_append {c : Name} (hne : c ≠ []) (hc : slash ∉ c) (r : Str) :
    components (c ++ r) =
      (c ++ r.takeWhile (· ≠ slash)) :: components (r.dropWhile (· ≠ slash)) := by
  have hname : slash ∉ c ++ r.takeWhile (· ≠ slash) := by
    simp only [List.mem_append,not_or]
    refine ⟨hc,fun hmem => ?_⟩
    simpa using List.mem_takeWhile_imp hmem
  have hone : components (c ++ r.takeWhile (· ≠ slash)) = [c ++ r.takeWhile (· ≠ slash)] :=
    components_of_no_slash hname (by simp [hne])
  have hr := List.takeWhile_append_dropWhile (p := (· ≠ slash)) (l := r)
  conv_lhs => rw [← hr,← List.append_assoc]
  cases hd : r.dropWhile (· ≠ slash) with
  | nil => rw [List.append_nil,hone,components_nil]
  | cons b w =>
    have hb : b = slash := by
      have := List.head?_dropWhile_not (· ≠ slash) r
      rw [hd] at this
      simpa using this
    rw [hb,components_append_slash,hone,components_slash_cons]
    rfl

theorem ProperName.append {c : Name} (h : ProperName c) (e : Str) :
    c ++ e ≠ dotName ∧ c ++ e ≠ dotdotName := by
  obtain ⟨hne,_,_,hdot,hup⟩ := h
  cases c with
  | nil => exact absurd rfl hne
  | cons b c =>
    constructor
    · intro heq
      simp only [dotName,List.cons_append,List.cons.injEq,List.append_eq_nil_iff] at heq
      exact hdot (by rw [heq.1,heq.2.1]; rfl)
    · intro heq
      cases c with
      | nil =>
        simp only [dotdotName,List.cons_append,List.cons.injEq] at heq
        exact hdot (by rw [heq.1]; rfl)
      | cons b' c =>
        simp only [dotdotName,List.cons_append,List.cons.injEq,List.append_eq_nil_iff] at heq
        exact hup (by rw [heq.1,heq.2.1,heq.2.2.1]; rfl)

theorem Canonical.resolve_append {d : Str} (h : Canonical d) (hroot : d ≠ [slash]) (r : Str)
    (cwd : Path) :
    ∃ p a, components d = p ++ [a] ∧ resolve cwd (d ++ r) =
      normalize (p ++ [a ++ r.takeWhile (· ≠ slash)]) (components (r.dropWhile (· ≠ slash))) := by
  obtain ⟨x,a,hd,hcomp,ha,hx⟩ := h.split hroot
  refine ⟨components x,a,hcomp,?_⟩
  have habs : Posix.absolute (d ++ r) := by
    have hhead := h.absolute
    unfold Posix.absolute at hhead ⊢
    rw [List.head?_append,hhead]
    rfl
  have hall : components (d ++ r) = (components x ++ [a ++ r.takeWhile (· ≠ slash)]) ++
      components (r.dropWhile (· ≠ slash)) := by
    have hdr : d ++ r = x ++ slash :: (a ++ r) := by
      rw [hd]
      simp
    rw [hdr,components_append_slash,components_name_append ha.1 ha.2.1]
    simp
  have hplain : ∀ b ∈ components x ++ [a ++ r.takeWhile (· ≠ slash)],
      b ≠ dotName ∧ b ≠ dotdotName := by
    intro b hb
    rcases List.mem_append.mp hb with hb | hb
    · exact ⟨(hx b hb).2.2.2.1,(hx b hb).2.2.2.2⟩
    · rw [List.mem_singleton.mp hb]
      exact ha.append _
  rw [resolve,if_pos habs,hall,normalize_append,normalize_of_plain hplain,List.nil_append]

end Posix
