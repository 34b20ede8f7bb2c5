import Mathlib.Data.List.Nodup
import Mathlib.Data.List.Infix
import RootHelper.Posix.Paths

/-!
A file system as a finite set of places with what stands at each. Every value is well formed:
each place but the root has a directory above it and a name that can be stored. The three updates
keep this, and `Change` records them so that a run can be followed afterwards.
-/

set_option autoImplicit false

namespace Posix

inductive Node where
  | file (content : Str) (mode : Nat)
  | dir (mode : Nat)
  | link (target : Str)
  deriving DecidableEq, Repr

def Node.isDir : Node → Bool
  | .dir _ => true
  | _ => false

structure FileSystem where
  node : Path → Option Node
  paths : List Path
  nodup : paths.Nodup
  mem_paths : ∀ p, p ∈ paths ↔ (node p).isSome
  root : (node []).any Node.isDir
  parent : ∀ p c, (node (p ++ [c])).isSome → (node p).any Node.isDir ∧ ProperName c

namespace FileSystem

def has (fs : FileSystem) (p : Path) : Bool := (fs.node p).isSome
def isDir (fs : FileSystem) (p : Path) : Bool := (fs.node p).any Node.isDir

theorem has_iff {fs : FileSystem} {p : Path} : fs.has p ↔ ∃ n, fs.node p = some n :=
  Option.isSome_iff_exists

theorem isDir_iff {fs : FileSystem} {p : Path} : fs.isDir p ↔ ∃ m, fs.node p = some (.dir m) := by
  unfold isDir
  cases h : fs.node p with
  | none => simp
  | some n => cases n <;> simp [Node.isDir]

theorem has_of_isDir {fs : FileSystem} {p : Path} (h : fs.isDir p) : fs.has p := by
  obtain ⟨m,hm⟩ := isDir_iff.mp h
  exact has_iff.mpr ⟨_,hm⟩

theorem node_of_not_has {fs : FileSystem} {p : Path} (h : ¬ fs.has p) : fs.node p = none := by
  simpa [has] using h

theorem isDir_of_above {fs : FileSystem} {p q : Path} (h : fs.has q) (hp : p <+: q) (hne : p ≠ q) :
    fs.isDir p := by
  obtain ⟨t,rfl⟩ := hp
  induction t using List.reverseRecOn with
  | nil => simp at hne
  | append_singleton t c ih =>
    rw [← List.append_assoc] at h
    have hd := (fs.parent (p++t) c h).1
    by_cases ht : t = []
    · subst ht; simpa [isDir] using hd
    · exact ih (has_of_isDir hd) (by simpa using ht)

theorem has_of_above {fs : FileSystem} {p q : Path} (h : fs.has q) (hp : p <+: q) : fs.has p := by
  by_cases e : p = q
  · rwa [e]
  · exact has_of_isDir (isDir_of_above h hp e)

theorem not_has_below {fs : FileSystem} {p q : Path} (h : ¬ fs.has p) (hp : p <+: q) :
    ¬ fs.has q := fun hq => h (has_of_above hq hp)

theorem proper_of_has {fs : FileSystem} {p : Path} {c : Name} (h : fs.has (p ++ [c])) :
    ProperName c := (fs.parent p c h).2

theorem has_root (fs : FileSystem) : fs.has [] := has_of_isDir fs.root

/-- The name `q` has in the directory `p`, when it stands there. -/
def childName : Path → Path → Option Name
  | [], [c] => some c
  | a :: p, b :: q => if a = b then childName p q else none
  | _, _ => none

theorem childName_eq_some {p q : Path} {c : Name} : childName p q = some c ↔ q = p ++ [c] := by
  induction p generalizing q with
  | nil =>
    match q with
    | [] => simp [childName]
    | [d] => simp [childName]
    | d :: e :: q => simp [childName]
  | cons a p ih =>
    cases q with
    | nil => simp [childName]
    | cons b q =>
      by_cases h : a = b
      · simp [childName,h,ih]
      · simp [childName,h,Ne.symm h]

def children (fs : FileSystem) (p : Path) : List Name := fs.paths.filterMap (childName p)

theorem mem_children {fs : FileSystem} {p : Path} {c : Name} :
    c ∈ fs.children p ↔ fs.has (p ++ [c]) := by
  simp [children,childName_eq_some,fs.mem_paths,has]

theorem nodup_children (fs : FileSystem) (p : Path) : (fs.children p).Nodup := by
  refine fs.nodup.filterMap ?_
  intro q q' c hq hq'
  rw [Option.mem_def,childName_eq_some] at hq hq'
  rw [hq,hq']

theorem not_has_below_childless {fs : FileSystem} {p q : Path} (h : fs.children p = [])
    (hp : p <+: q) (hne : p ≠ q) : ¬ fs.has q := by
  obtain ⟨t,rfl⟩ := hp
  intro hq
  cases t with
  | nil => simp at hne
  | cons c t =>
    have hc : fs.has (p ++ [c]) := has_of_above hq ⟨t,by simp⟩
    rw [← mem_children,h] at hc
    simp at hc

theorem children_of_not_isDir {fs : FileSystem} {p : Path} (h : ¬ fs.isDir p) :
    fs.children p = [] := by
  rw [List.eq_nil_iff_forall_not_mem]
  intro c hc
  rw [mem_children] at hc
  exact h (fs.parent p c hc).1

/-- A node may be put at a name of a directory unless it would replace a directory by something
else. -/
def CanPut (fs : FileSystem) (p : Path) (c : Name) (n : Node) : Prop :=
  fs.isDir p ∧ ProperName c ∧ (fs.isDir (p ++ [c]) → n.isDir)

instance (fs : FileSystem) (p : Path) (c : Name) (n : Node) : Decidable (fs.CanPut p c n) :=
  inferInstanceAs (Decidable (_ ∧ _ ∧ _))

def put (fs : FileSystem) (p : Path) (c : Name) (n : Node) (h : fs.CanPut p c n) : FileSystem where
  node q := if q = p ++ [c] then some n else fs.node q
  paths := if fs.has (p ++ [c]) then fs.paths else (p ++ [c]) :: fs.paths
  nodup := by
    split
    · exact fs.nodup
    · rename_i hn
      exact List.nodup_cons.mpr ⟨fun hm => hn ((fs.mem_paths _).mp hm),fs.nodup⟩
  mem_paths q := by
    by_cases e : q = p ++ [c]
    · subst e
      by_cases hh : fs.has (p ++ [c])
      · have hm : p ++ [c] ∈ fs.paths := (fs.mem_paths _).mpr hh
        simp [hh,hm]
      · simp [hh]
    · by_cases hh : fs.has (p ++ [c]) <;> simp [hh,e,fs.mem_paths]
  root := by simpa using fs.root
  parent q d hq := by
    obtain ⟨hp,hc,hd⟩ := h
    have old : (fs.node (q ++ [d])).isSome ∨ q ++ [d] = p ++ [c] := by
      by_cases e : q ++ [d] = p ++ [c]
      · exact .inr e
      · left; simpa only [if_neg e] using hq
    have stays : (fs.node q).any Node.isDir →
        (if q = p ++ [c] then some n else fs.node q).any Node.isDir := by
      intro hqd
      by_cases e : q = p ++ [c]
      · subst e; simpa using hd hqd
      · simpa [e] using hqd
    rcases old with old | e
    · exact ⟨stays (fs.parent q d old).1,(fs.parent q d old).2⟩
    · obtain ⟨rfl,e⟩ := List.append_inj' e rfl
      obtain rfl : d = c := by simpa using e
      exact ⟨stays hp,hc⟩

def CanErase (fs : FileSystem) (p : Path) : Prop := p ≠ [] ∧ fs.children p = []

instance (fs : FileSystem) (p : Path) : Decidable (fs.CanErase p) :=
  inferInstanceAs (Decidable (_ ∧ _))

def erase (fs : FileSystem) (p : Path) (h : fs.CanErase p) : FileSystem where
  node q := if q = p then none else fs.node q
  paths := fs.paths.filter (· ≠ p)
  nodup := fs.nodup.filter _
  mem_paths q := by
    by_cases e : q = p <;> simp [e,fs.mem_paths]
  root := by simpa [h.1.symm] using fs.root
  parent q d hq := by
    by_cases e : q ++ [d] = p
    · simp [e] at hq
    · simp only [if_neg e] at hq
      have hne : q ≠ p := by
        rintro rfl
        have hm : d ∈ fs.children q := mem_children.mpr hq
        simp [h.2] at hm
      simpa only [if_neg hne] using fs.parent q d hq

/-- What is left of `r` below `p`. -/
def below : Path → Path → Option Path
  | [], r => some r
  | a :: p, b :: r => if a = b then below p r else none
  | _ :: _, [] => none

theorem below_eq_some {p r t : Path} : below p r = some t ↔ r = p ++ t := by
  induction p generalizing r with
  | nil => simp [below]
  | cons a p ih =>
    cases r with
    | nil => simp [below]
    | cons b r =>
      by_cases h : a = b
      · simp [below,h,ih]
      · simp [below,h,Ne.symm h]

theorem below_append (p t : Path) : below p (p ++ t) = some t := below_eq_some.mpr rfl

theorem below_eq_none {p r : Path} : below p r = none ↔ ¬ p <+: r := by
  constructor
  · rintro h ⟨t,rfl⟩
    simp [below_append] at h
  · intro h
    cases hb : below p r with
    | none => rfl
    | some t => exact absurd ⟨t,(below_eq_some.mp hb).symm⟩ h

/-- `p` goes to the name `c` of the directory `q`, with all that is below it. What is at the
target may not have anything below it, and the target may not be inside `p`. -/
def CanMove (fs : FileSystem) (p q : Path) (c : Name) : Prop :=
  p ≠ [] ∧ fs.has p ∧ fs.isDir q ∧ ProperName c ∧ ¬ p <+: q ++ [c] ∧
    fs.children (q ++ [c]) = []

instance (fs : FileSystem) (p q : Path) (c : Name) : Decidable (fs.CanMove p q c) :=
  inferInstanceAs (Decidable (_ ∧ _ ∧ _ ∧ _ ∧ _ ∧ _))

def movedNode (fs : FileSystem) (p t : Path) (r : Path) : Option Node :=
  match below t r with
  | some s => fs.node (p ++ s)
  | none => if p <+: r then none else fs.node r

def movedPaths (fs : FileSystem) (p t : Path) : List Path :=
  fs.paths.filter (fun r => ¬ p <+: r ∧ ¬ t <+: r) ++ (fs.paths.filterMap (below p)).map (t ++ ·)

theorem movedNode_at (fs : FileSystem) (p t s : Path) :
    fs.movedNode p t (t ++ s) = fs.node (p ++ s) := by
  simp [movedNode,below_append]

theorem movedNode_away {fs : FileSystem} {p t r : Path} (h : ¬ t <+: r) :
    fs.movedNode p t r = if p <+: r then none else fs.node r := by
  simp [movedNode,below_eq_none.mpr h]

theorem mem_movedPaths {fs : FileSystem} {p t r : Path} :
    r ∈ fs.movedPaths p t ↔ (fs.movedNode p t r).isSome := by
  have hleft : r ∈ fs.paths.filter (fun r => ¬ p <+: r ∧ ¬ t <+: r) ↔
      ¬ p <+: r ∧ ¬ t <+: r ∧ (fs.node r).isSome := by
    simp only [List.mem_filter,decide_eq_true_eq,fs.mem_paths]
    tauto
  have hright : r ∈ (fs.paths.filterMap (below p)).map (t ++ ·) ↔
      ∃ s, r = t ++ s ∧ (fs.node (p ++ s)).isSome := by
    simp only [List.mem_map,List.mem_filterMap,below_eq_some,fs.mem_paths]
    constructor
    · rintro ⟨s,⟨_,hs,rfl⟩,rfl⟩; exact ⟨s,rfl,hs⟩
    · rintro ⟨s,rfl,hs⟩; exact ⟨s,⟨_,hs,rfl⟩,rfl⟩
  rw [movedPaths,List.mem_append,hleft,hright]
  by_cases ht : t <+: r
  · obtain ⟨s,rfl⟩ := ht
    rw [movedNode_at]
    simp
  · rw [movedNode_away ht]
    have hno : ¬ ∃ s, r = t ++ s ∧ (fs.node (p ++ s)).isSome := by
      rintro ⟨s,rfl,_⟩; exact ht ⟨s,rfl⟩
    by_cases hp : p <+: r <;> simp [hp,ht,hno]

theorem nodup_movedPaths (fs : FileSystem) (p t : Path) : (fs.movedPaths p t).Nodup := by
  have hbelow : (fs.paths.filterMap (below p)).Nodup := by
    refine fs.nodup.filterMap ?_
    intro r r' s hr hr'
    rw [Option.mem_def,below_eq_some] at hr hr'
    rw [hr,hr']
  refine List.Nodup.append (fs.nodup.filter _) (hbelow.map fun a b h => by simpa using h) ?_
  intro r hr hr'
  obtain ⟨s,_,rfl⟩ := List.mem_map.mp hr'
  simp at hr

def move (fs : FileSystem) (p q : Path) (c : Name) (h : fs.CanMove p q c) : FileSystem where
  node := fs.movedNode p (q ++ [c])
  paths := fs.movedPaths p (q ++ [c])
  nodup := fs.nodup_movedPaths _ _
  mem_paths _ := mem_movedPaths
  root := by
    have hp : ¬ p <+: ([] : Path) := by simpa using h.1
    have ht : ¬ q ++ [c] <+: ([] : Path) := by simp
    rw [movedNode_away ht,if_neg hp]
    exact fs.root
  parent r d hr := by
    obtain ⟨hp,hhas,hq,hc,hout,hempty⟩ := h
    by_cases ht : q ++ [c] <+: r ++ [d]
    · rcases List.prefix_concat_iff.mp ht with e | ht
      · -- the moved place itself: its parent is `q`, which stays
        obtain ⟨rfl,e⟩ := List.append_inj' e rfl
        obtain rfl : c = d := by simpa using e
        have hpq : ¬ p <+: q := fun hpre => hout (hpre.trans (List.prefix_append _ _))
        have hqq : ¬ q ++ [c] <+: q := fun hpre => by
          have hl := hpre.length_le
          simp only [List.length_append,List.length_singleton] at hl
          omega
        rw [movedNode_away hqq,if_neg hpq]
        exact ⟨hq,hc⟩
      · obtain ⟨s,rfl⟩ := ht
        rw [List.append_assoc _ s [d],movedNode_at,← List.append_assoc] at hr
        rw [movedNode_at]
        exact fs.parent _ _ hr
    · rw [movedNode_away ht] at hr
      by_cases hpre : p <+: r ++ [d]
      · simp [hpre] at hr
      · rw [if_neg hpre] at hr
        have hpr : ¬ p <+: r := fun h' => hpre (h'.trans (List.prefix_append _ _))
        have htr : ¬ q ++ [c] <+: r := fun h' => ht (h'.trans (List.prefix_append _ _))
        rw [movedNode_away htr,if_neg hpr]
        exact fs.parent _ _ hr

def WellFormed (l : List (Path × Node)) : Prop :=
  (l.map Prod.fst).Nodup ∧ (l.lookup []).any Node.isDir ∧
    ∀ q ∈ l.map Prod.fst, q = [] ∨
      ((l.lookup q.dropLast).any Node.isDir ∧ ∀ c ∈ q.getLast?, ProperName c)

instance (l : List (Path × Node)) : Decidable (WellFormed l) :=
  inferInstanceAs (Decidable (_ ∧ _ ∧ _))

theorem mem_map_fst_iff_lookup (l : List (Path × Node)) (p : Path) :
    p ∈ l.map Prod.fst ↔ (l.lookup p).isSome := by
  induction l with
  | nil => simp
  | cons e l ih =>
    obtain ⟨q,n⟩ := e
    by_cases h : p = q
    · simp [h]
    · have hb : (p == q) = false := by simpa using h
      rw [List.map_cons,List.mem_cons,List.lookup_cons,hb]
      simp [h,ih]

def ofEntries (l : List (Path × Node)) (h : WellFormed l) : FileSystem where
  node p := l.lookup p
  paths := l.map Prod.fst
  nodup := h.1
  mem_paths := mem_map_fst_iff_lookup l
  root := h.2.1
  parent p c hc := by
    rcases h.2.2 (p ++ [c]) ((mem_map_fst_iff_lookup l _).mpr hc) with e | ⟨hp,hn⟩
    · simp at e
    · simpa using And.intro hp (hn c (by simp))

def onlyRoot : FileSystem := ofEntries [([],.dir 0o755)] (by decide)

end FileSystem

inductive Change where
  | put (p : Path) (c : Name) (n : Node)
  | erase (p : Path)
  | move (p q : Path) (c : Name)
  deriving DecidableEq, Repr

namespace Change

def apply : Change → FileSystem → FileSystem
  | put p c n, fs => if h : fs.CanPut p c n then fs.put p c n h else fs
  | erase p, fs => if h : fs.CanErase p then fs.erase p h else fs
  | move p q c, fs => if h : fs.CanMove p q c then fs.move p q c h else fs

/-- The places whose node the change may alter. -/
def touches : Change → Path → Prop
  | put p c _, r => r = p ++ [c]
  | erase p, r => r = p
  | move p q c, r => p <+: r ∨ q ++ [c] <+: r

instance (c : Change) (r : Path) : Decidable (c.touches r) := by
  cases c <;> (unfold touches; infer_instance)

theorem node_apply_of_not_touches {c : Change} {fs : FileSystem} {r : Path}
    (h : ¬ c.touches r) : (c.apply fs).node r = fs.node r := by
  cases c with
  | put p c n =>
    simp only [touches] at h
    by_cases hc : fs.CanPut p c n <;> simp [apply,hc,FileSystem.put,h]
  | erase p =>
    simp only [touches] at h
    by_cases hc : fs.CanErase p <;> simp [apply,hc,FileSystem.erase,h]
  | move p q c =>
    simp only [touches,not_or] at h
    by_cases hc : fs.CanMove p q c
    · simp [apply,hc,FileSystem.move,FileSystem.movedNode_away h.2,h.1]
    · simp [apply,hc]

theorem node_put {fs : FileSystem} {p : Path} {c : Name} {n : Node} (h : fs.CanPut p c n)
    (r : Path) : ((put p c n).apply fs).node r = if r = p ++ [c] then some n else fs.node r := by
  simp [apply,h,FileSystem.put]

theorem node_erase {fs : FileSystem} {p : Path} (h : fs.CanErase p) (r : Path) :
    ((erase p).apply fs).node r = if r = p then none else fs.node r := by
  simp [apply,h,FileSystem.erase]

theorem node_move {fs : FileSystem} {p q : Path} {c : Name} (h : fs.CanMove p q c) (r : Path) :
    ((move p q c).apply fs).node r = fs.movedNode p (q ++ [c]) r := by
  simp [apply,h,FileSystem.move]

end Change
end Posix
