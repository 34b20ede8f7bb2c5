import RootHelper.Posix.Walk

/-!
What a path leads to while a tree is taken away from below, and to whom: a process that may look up
every name finds all that any other finds.
-/

set_option autoImplicit false

namespace Posix
namespace FileSystem

/-- With nothing left below `l`. -/
def cleared (fs : FileSystem) (l : Path) : FileSystem where
  node q := if l <+: q ∧ q ≠ l then none else fs.node q
  paths := fs.paths.filter fun q => ¬ (l <+: q ∧ q ≠ l)
  nodup := fs.nodup.filter _
  mem_paths q := by
    rw [List.mem_filter,fs.mem_paths]
    by_cases h : l <+: q ∧ q ≠ l
    · simp [h]
    · rw [if_neg h,decide_eq_true h]
      exact and_iff_left rfl
  root := by
    have htop : ¬ (l <+: ([] : Path) ∧ [] ≠ l) := fun h => h.2 (List.prefix_nil.mp h.1).symm
    rw [if_neg htop]
    exact fs.root
  parent p c h := by
    by_cases hbelow : l <+: p ++ [c] ∧ p ++ [c] ≠ l
    · simp [hbelow] at h
    · have habove : ¬ (l <+: p ∧ p ≠ l) := by
        rintro ⟨hpre,_⟩
        refine hbelow ⟨hpre.trans (List.prefix_append p [c]),fun heq => ?_⟩
        have hlen := hpre.length_le
        rw [← heq,List.length_append,List.length_singleton] at hlen
        exact absurd hlen (Nat.not_succ_le_self _)
      rw [if_neg hbelow] at h
      rw [if_neg habove]
      exact fs.parent p c h

/-- What is gone of `fs₀` was at or below `l`. -/
structure Thinned (fs₀ : FileSystem) (l : Path) (fs : FileSystem) : Prop where
  le : fs.Le fs₀
  same : ∀ q, ¬ l <+: q → fs.node q = fs₀.node q

variable {fs₀ fs : FileSystem} {l : Path}

theorem thinned_refl (fs : FileSystem) (l : Path) : Thinned fs l fs := ⟨.refl fs,fun _ _ => rfl⟩

theorem Thinned.erase (h : Thinned fs₀ l fs) {q : Path} (hq : l <+: q) (hcan : fs.CanErase q) :
    Thinned fs₀ l ((Change.erase q).apply fs) := by
  constructor
  · intro r n hr
    rw [Change.node_erase hcan] at hr
    split_ifs at hr
    exact h.le r n hr
  · intro r hr
    have hne : r ≠ q := fun heq => hr (heq.symm ▸ hq)
    rw [Change.node_erase hcan,if_neg hne,h.same r hr]

theorem Thinned.cleared_le (h : Thinned fs₀ l fs) (hhas : fs.has l) : (fs₀.cleared l).Le fs := by
  intro q n hq
  simp only [cleared] at hq
  split_ifs at hq with hbelow
  by_cases hpre : l <+: q
  · have heq : q = l := by
      by_contra hne
      exact hbelow ⟨hpre,hne⟩
    obtain ⟨n',hn'⟩ := has_iff.mp hhas
    rw [heq] at hq ⊢
    rw [h.le l n' hn'] at hq
    rw [hn',hq]
  · rw [h.same q hpre,hq]

theorem Thinned.le_cleared (h : Thinned fs₀ l fs) (hnone : fs.children l = []) :
    fs.Le (fs₀.cleared l) := by
  intro q n hq
  have habove : ¬ (l <+: q ∧ q ≠ l) := fun hbelow =>
    not_has_below_childless hnone hbelow.1 (Ne.symm hbelow.2) (has_iff.mpr ⟨n,hq⟩)
  simp only [cleared]
  rw [if_neg habove]
  exact h.le q n hq

end FileSystem

namespace Kernel

variable {k : Kernel} {fs : FileSystem}

/-- The same process, if it may look up every name. -/
def unlocked (k : Kernel) : Kernel := { k with permits := fun _ _ _ => true }

theorem along_unlocked {again again' : Path → List Name → Except Errno Path}
    (hagain : ∀ p cs q, again p cs = .ok q → again' p cs = .ok q) {cur q : Path} {cs : List Name}
    (h : k.along fs again cur cs = .ok q) : k.unlocked.along fs again' cur cs = .ok q := by
  induction cs generalizing cur with
  | nil => exact h
  | cons c cs ih =>
    unfold along at h ⊢
    cases hn : fs.node cur with
    | none => simp [hn] at h
    | some n =>
      cases n with
      | file content m => simp [hn] at h
      | link t => simp [hn] at h
      | dir m =>
        simp only [hn,unlocked,Bool.true_eq_false,if_false] at h ⊢
        split_ifs at h ⊢
        · exact ih h
        · exact ih h
        · exact ih h
        · cases hc : fs.node (cur ++ [c]) with
          | none => simp [hc] at h
          | some n' =>
            cases n' with
            | file content m' => simp only [hc] at h ⊢; exact ih h
            | dir m' => simp only [hc] at h ⊢; exact ih h
            | link t => simp only [hc] at h ⊢; exact hagain _ _ _ h

theorem walk_unlocked {n : Nat} {cur q : Path} {cs : List Name} (h : k.walk fs n cur cs = .ok q) :
    k.unlocked.walk fs n cur cs = .ok q := by
  induction n generalizing cur cs q with
  | zero => exact along_unlocked (fun _ _ _ h => by simp at h) h
  | succ n ih => exact along_unlocked (fun _ _ _ h => ih h) h

theorem spotFrom_unlocked {p : Path} {cs : List Name} {sp : Spot} (h : k.spotFrom fs p cs = .ok sp) :
    k.unlocked.spotFrom fs p cs = .ok sp := by
  unfold spotFrom at h ⊢
  cases hl : cs.getLast? with
  | none => simpa [hl] using h
  | some c =>
    simp only [hl] at h ⊢
    cases hw : k.walk fs maxLinks p cs.dropLast with
    | error e => simp [hw,bind,Except.bind] at h
    | ok q =>
      rw [walk_unlocked hw]
      simp only [hw,bind,Except.bind] at h ⊢
      cases hn : fs.node q with
      | none => simp [hn] at h
      | some n =>
        cases n with
        | file content m => simp [hn] at h
        | link t => simp [hn] at h
        | dir m =>
          simp only [hn] at h ⊢
          have hne : dotdotName ≠ dotName := by decide
          split_ifs at h with hp hd hdd
          · simpa [unlocked,hd] using h
          · simpa [unlocked,hdd,hne] using h
          · simpa [unlocked,hd,hdd] using h

theorem glance_unlocked {s : Str} {q : Path} (h : k.glance fs s = .ok q) :
    k.unlocked.glance fs s = .ok q := by
  have hstart : k.unlocked.start (cstr s) = k.start (cstr s) := rfl
  unfold glance follow spot at h ⊢
  rw [hstart]
  split_ifs at h ⊢
  · exact walk_unlocked h
  · simp [Except.map] at h
  · cases hs : k.spotFrom fs (k.start (cstr s)) (components (cstr s)) with
    | error e => simp [hs,Except.map] at h
    | ok sp => rw [spotFrom_unlocked hs]; simpa [hs] using h

end Kernel
end Posix
