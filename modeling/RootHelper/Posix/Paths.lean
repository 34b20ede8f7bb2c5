import Mathlib.Data.List.Basic
import Mathlib.Data.List.Infix
import Mathlib.Data.List.TakeWhile

/-!
Path strings and the places they name. A string is a sequence of bytes; a place is the list of
names that leads to it from the root. Nothing here looks at a file system: `resolve` treats the
dot names by their spelling only.
-/

set_option autoImplicit false

namespace Posix

abbrev Byte := UInt8
abbrev Str := List Byte

instance : LawfulBEq Str := List.instLawfulBEq

def text (cs : List Char) : Str := cs.map fun c => UInt8.ofNat c.toNat

def slash : Byte := 47
def dot : Byte := 46

abbrev Name := Str
/-- The names from the root downwards; `[]` is the root itself. -/
abbrev Path := List Name

def dotName : Name := [dot]
def dotdotName : Name := [dot,dot]

/-- What a directory entry can be called: the two dot names are never stored. -/
def ProperName (c : Name) : Prop :=
  c ≠ [] ∧ slash ∉ c ∧ (0 : Byte) ∉ c ∧ c ≠ dotName ∧ c ≠ dotdotName

instance (c : Name) : Decidable (ProperName c) :=
  inferInstanceAs (Decidable (_ ∧ _ ∧ _ ∧ _ ∧ _))

/-- The part of a string a C interface sees: it ends at the first NUL. -/
def cstr (s : Str) : Str := s.takeWhile (· ≠ 0)

def NulFree (s : Str) : Prop := (0 : Byte) ∉ s

instance (s : Str) : Decidable (NulFree s) := inferInstanceAs (Decidable (_ ∉ _))

/-- The pieces between slashes, empty ones included. -/
def pieces : Str → List Str
  | [] => [[]]
  | c :: s => if c = slash then [] :: pieces s else (pieces s).modifyHead (c :: ·)

def components (s : Str) : List Name := (pieces s).filter (· ≠ [])

def absolute (s : Str) : Prop := s.head? = some slash

instance (s : Str) : Decidable (absolute s) := inferInstanceAs (Decidable (_ = _))

def endsWithSlash (s : Str) : Prop := s.getLast? = some slash

instance (s : Str) : Decidable (endsWithSlash s) := inferInstanceAs (Decidable (_ = _))

theorem pieces_ne_nil (s : Str) : pieces s ≠ [] := by
  cases s with
  | nil => simp [pieces]
  | cons c s =>
    by_cases h : c = slash
    · simp [pieces,h]
    · cases hp : pieces s with
      | nil => exact absurd hp (pieces_ne_nil s)
      | cons a l => simp [pieces,h,hp]

theorem pieces_append_slash (x y : Str) :
    pieces (x ++ slash :: y) = pieces x ++ pieces y := by
  induction x with
  | nil => simp [pieces]
  | cons c x ih =>
    by_cases h : c = slash
    · simp [pieces,h,ih]
    · cases hp : pieces x with
      | nil => exact absurd hp (pieces_ne_nil x)
      | cons a l => simp [pieces,h,ih,hp]

theorem components_append_slash (x y : Str) :
    components (x ++ slash :: y) = components x ++ components y := by
  simp [components,pieces_append_slash]

theorem pieces_eq_of_no_slash {s : Str} (h : slash ∉ s) : pieces s = [s] := by
  induction s with
  | nil => rfl
  | cons c s ih =>
    simp only [List.mem_cons,not_or] at h
    simp [pieces,Ne.symm h.1,ih h.2]

theorem components_of_no_slash {s : Str} (h : slash ∉ s) (hne : s ≠ []) :
    components s = [s] := by
  simp [components,pieces_eq_of_no_slash h,hne]

@[simp] theorem components_nil : components [] = [] := rfl

@[simp] theorem components_slash_cons (s : Str) : components (slash :: s) = components s := by
  have h := components_append_slash [] s
  simpa using h

theorem ProperName.components {c : Name} (h : ProperName c) : components c = [c] :=
  components_of_no_slash h.2.1 h.1

theorem components_concat_name (x : Str) {c : Name} (h : ProperName c) :
    components (x ++ slash :: c) = components x ++ [c] := by
  rw [components_append_slash,h.components]

theorem slash_not_mem_pieces {s p : Str} (h : p ∈ pieces s) : slash ∉ p := by
  induction s generalizing p with
  | nil => simp only [pieces,List.mem_singleton] at h; subst h; simp
  | cons c s ih =>
    by_cases hc : c = slash
    · simp only [pieces,hc,if_true,List.mem_cons] at h
      rcases h with rfl | h
      · simp
      · exact ih h
    · cases hp : pieces s with
      | nil => exact absurd hp (pieces_ne_nil s)
      | cons a l =>
        rw [hp] at ih
        simp only [pieces,hc,if_false,hp,List.modifyHead_cons,List.mem_cons] at h
        rcases h with rfl | h
        · simp only [List.mem_cons,not_or]
          exact ⟨fun e => hc e.symm,ih (by simp)⟩
        · exact ih (by simp [h])

theorem components_wellFormed {s : Str} {c : Name} (h : c ∈ components s) :
    c ≠ [] ∧ slash ∉ c := by
  simp only [components,List.mem_filter,decide_not,Bool.not_eq_eq_eq_not,Bool.not_true,
    decide_eq_false_iff_not] at h
  exact ⟨h.2,slash_not_mem_pieces h.1⟩

theorem mem_of_mem_pieces {s p : Str} {b : Byte} (h : p ∈ pieces s) (hb : b ∈ p) : b ∈ s := by
  induction s generalizing p with
  | nil => simp only [pieces,List.mem_singleton] at h; subst h; simp at hb
  | cons c s ih =>
    by_cases hc : c = slash
    · simp only [pieces,hc,if_true,List.mem_cons] at h
      rcases h with rfl | h
      · simp at hb
      · exact List.mem_cons_of_mem _ (ih h hb)
    · cases hp : pieces s with
      | nil => exact absurd hp (pieces_ne_nil s)
      | cons a l =>
        rw [hp] at ih
        simp only [pieces,hc,if_false,hp,List.modifyHead_cons,List.mem_cons] at h
        rcases h with rfl | h
        · rcases List.mem_cons.mp hb with rfl | hb
          · simp
          · exact List.mem_cons_of_mem _ (ih (by simp) hb)
        · exact List.mem_cons_of_mem _ (ih (by simp [h]) hb)

theorem exists_piece_of_mem {s : Str} {b : Byte} (h : b ∈ s) (hb : b ≠ slash) :
    ∃ p ∈ pieces s, b ∈ p := by
  induction s with
  | nil => simp at h
  | cons c s ih =>
    unfold pieces
    by_cases hc : c = slash
    · have hs : b ∈ s := by
        rcases List.mem_cons.mp h with e | h
        · exact absurd (e.trans hc) hb
        · exact h
      obtain ⟨p,hp,hbp⟩ := ih hs
      exact ⟨p,by simp [hc,hp],hbp⟩
    · obtain ⟨a,l,hal⟩ := List.exists_cons_of_ne_nil (pieces_ne_nil s)
      rw [if_neg hc,hal,List.modifyHead_cons]
      rcases List.mem_cons.mp h with rfl | h
      · exact ⟨b :: a,by simp,by simp⟩
      · obtain ⟨p,hp,hbp⟩ := ih h
        rw [hal] at hp
        rcases List.mem_cons.mp hp with rfl | hp
        · exact ⟨c :: p,by simp,by simp [hbp]⟩
        · exact ⟨p,by simp [hp],hbp⟩

theorem components_ne_nil {s : Str} {b : Byte} (h : b ∈ s) (hb : b ≠ slash) : components s ≠ [] := by
  obtain ⟨p,hp,hbp⟩ := exists_piece_of_mem h hb
  have hmem : p ∈ components s := List.mem_filter.mpr ⟨hp,by
    simpa using List.ne_nil_of_mem hbp⟩
  exact List.ne_nil_of_mem hmem

theorem components_ne_nil_of_end {s : Str} (h : s ≠ []) (hs : ¬ endsWithSlash s) :
    components s ≠ [] := by
  refine components_ne_nil (List.getLast_mem h) fun hlast => hs ?_
  rw [endsWithSlash,List.getLast?_eq_some_getLast h,hlast]

theorem mem_of_mem_components {s : Str} {c : Name} {b : Byte} (h : c ∈ components s)
    (hb : b ∈ c) : b ∈ s := mem_of_mem_pieces (List.mem_filter.mp h).1 hb

theorem cstr_append_of_nulFree {s : Str} (h : NulFree s) (t : Str) :
    cstr (s ++ t) = s ++ cstr t := by
  unfold cstr
  rw [List.takeWhile_append_of_pos]
  intro b hb
  have hne : b ≠ 0 := fun e => h (e ▸ hb)
  simpa using hne

theorem cstr_of_nulFree {s : Str} (h : NulFree s) : cstr s = s := by
  simpa [cstr] using cstr_append_of_nulFree h []

/-- A string with a NUL keeps its C value whatever is put after it. -/
theorem cstr_append_of_nul {s : Str} (h : ¬ NulFree s) (t : Str) :
    cstr (s ++ t) = cstr s := by
  unfold NulFree at h
  push Not at h
  induction s with
  | nil => simp at h
  | cons b s ih =>
    by_cases hb : b = 0
    · simp [cstr,hb]
    · have hs : (0 : Byte) ∈ s := by
        rcases List.mem_cons.mp h with e | hs
        · exact absurd e.symm hb
        · exact hs
      have hcut := ih hs
      simp only [cstr] at hcut ⊢
      simp only [List.cons_append,List.takeWhile_cons,hcut]

theorem nulFree_cstr (s : Str) : NulFree (cstr s) := by
  intro h
  simpa using List.mem_takeWhile_imp h

/-- One component walked from a place by its spelling. -/
def advance (p : Path) (c : Name) : Path :=
  if c = dotName then p else if c = dotdotName then p.dropLast else p ++ [c]

/-- The place a list of components spells, from `p`. -/
def normalize (p : Path) (cs : List Name) : Path := cs.foldl advance p

/-- The place a string spells for a process whose working directory is `cwd`. -/
def resolve (cwd : Path) (s : Str) : Path :=
  normalize (if absolute s then [] else cwd) (components s)

@[simp] theorem normalize_nil (p : Path) : normalize p [] = p := rfl

@[simp] theorem normalize_cons (p : Path) (c : Name) (cs : List Name) :
    normalize p (c :: cs) = normalize (advance p c) cs := rfl

theorem normalize_append (p : Path) (cs ds : List Name) :
    normalize p (cs ++ ds) = normalize (normalize p cs) ds := by
  simp [normalize,List.foldl_append]

theorem normalize_of_plain {cs : List Name} (h : ∀ c ∈ cs, c ≠ dotName ∧ c ≠ dotdotName)
    (p : Path) : normalize p cs = p ++ cs := by
  induction cs generalizing p with
  | nil => simp
  | cons c cs ih =>
    have hc := h c (by simp)
    rw [normalize_cons,ih (fun d hd => h d (by simp [hd]))]
    simp [advance,hc.1,hc.2]

end Posix
