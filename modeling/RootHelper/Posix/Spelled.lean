import RootHelper.Posix.History

/-!
Paths along which no link stands and that never go up lead where they are spelled. What is made on
the way to such a place, and what is moved there while it is free, takes nothing away.
-/

set_option autoImplicit false

namespace Posix

def Kernel.spelled (k : Kernel) (s : Str) : Path :=
  k.start (cstr s) ++ (components (cstr s)).filter (· ≠ dotName)

/-- Nothing is at the place, and no link above it. -/
structure FileSystem.Awaits (fs : FileSystem) (p : Path) : Prop where
  free : ¬ fs.has p
  linkless : ∀ r, r <+: p → ∀ t, fs.node r ≠ some (.link t)

namespace Kernel

variable {k : Kernel} {fs : FileSystem} {s : Str} {p q cur : Path} {c : Name} {cs : List Name}

theorem along_spelled {again : Path → List Name → Except Errno Path} (hup : dotdotName ∉ cs)
    (hnames : [] ∉ cs)
    (hlinks : ∀ r, r <+: cur ++ cs.filter (· ≠ dotName) → ∀ t, fs.node r ≠ some (.link t))
    (h : k.along fs again cur cs = .ok q) : q = cur ++ cs.filter (· ≠ dotName) := by
  induction cs generalizing cur with
  | nil =>
    rw [List.filter_nil,List.append_nil]
    exact (Except.ok.inj h).symm
  | cons c cs ih =>
    simp only [List.mem_cons,not_or] at hup hnames
    unfold along at h
    cases hnode : fs.node cur with
    | none => simp [hnode] at h
    | some n =>
      cases n with
      | file content m => simp [hnode] at h
      | link t => simp [hnode] at h
      | dir m =>
        simp only [hnode,if_neg (Ne.symm hnames.1),if_neg (Ne.symm hup.1)] at h
        split_ifs at h with _ hdot
        · rw [List.filter_cons_of_neg (by simp [hdot])] at hlinks ⊢
          exact ih hup.2 hnames.2 hlinks h
        · rw [List.filter_cons_of_pos (by simpa using hdot)] at hlinks ⊢
          have happend : ∀ t : List Name, cur ++ c :: t = cur ++ [c] ++ t := by simp
          rw [happend] at hlinks ⊢
          cases hc : fs.node (cur ++ [c]) with
          | none => simp [hc] at h
          | some n =>
            cases n with
            | file content m' =>
              simp only [hc] at h
              exact ih hup.2 hnames.2 hlinks h
            | dir m' =>
              simp only [hc] at h
              exact ih hup.2 hnames.2 hlinks h
            | link t => exact absurd hc (hlinks _ (List.prefix_append _ _) t)

theorem walk_spelled {n : Nat} (hup : dotdotName ∉ cs) (hnames : [] ∉ cs)
    (hlinks : ∀ r, r <+: cur ++ cs.filter (· ≠ dotName) → ∀ t, fs.node r ≠ some (.link t))
    (h : k.walk fs n cur cs = .ok q) : q = cur ++ cs.filter (· ≠ dotName) := by
  cases n with
  | zero => exact along_spelled hup hnames hlinks h
  | succ n => exact along_spelled hup hnames hlinks h

theorem spot_spelled (hup : dotdotName ∉ components (cstr s))
    (hlinks : ∀ r, r <+: k.spelled s → ∀ t, fs.node r ≠ some (.link t))
    (h : k.spot fs s = .ok (.name p c)) : p ++ [c] = k.spelled s := by
  unfold spot at h
  split_ifs at h
  obtain ⟨_,hdot,_,hlast,hwalk⟩ := spotFrom_name h
  have hsplit := List.dropLast_append_getLast? c hlast
  rw [spelled,← hsplit,List.filter_append,← List.append_assoc,
    List.filter_cons_of_pos (by simpa using hdot)] at hlinks ⊢
  rw [List.filter_nil] at hlinks ⊢
  have hup' : dotdotName ∉ (components (cstr s)).dropLast := fun hmem =>
    hup (List.dropLast_subset _ hmem)
  have hnames : [] ∉ (components (cstr s)).dropLast := fun hmem =>
    (components_wellFormed (List.dropLast_subset _ hmem)).1 rfl
  rw [walk_spelled hup' hnames (fun r hr => hlinks r (hr.trans (List.prefix_append _ _))) hwalk]

theorem spelled_above {x y : Str} (hs : s = x ++ slash :: y) (hx : x ≠ []) :
    k.spelled x <+: k.spelled s ∧ components (cstr x) <+: components (cstr s) := by
  subst hs
  by_cases hnul : NulFree x
  · have hslash : cstr (slash :: y) = slash :: cstr y := by
      rw [cstr,List.takeWhile_cons_of_pos (by decide)]
      rfl
    have hcstr : cstr (x ++ slash :: y) = x ++ slash :: cstr y := by
      rw [cstr_append_of_nulFree hnul,hslash]
    have habs : absolute (x ++ slash :: cstr y) ↔ absolute x := by
      rw [absolute,absolute,List.head?_append_of_ne_nil _ hx]
    have hstart : k.start (x ++ slash :: cstr y) = k.start x := by
      simp only [start,habs]
    rw [spelled,spelled,hcstr,cstr_of_nulFree hnul,components_append_slash,hstart,List.filter_append,
      ← List.append_assoc]
    exact ⟨List.prefix_append _ _,List.prefix_append _ _⟩
  · rw [spelled,spelled,cstr_append_of_nul hnul]
    exact ⟨List.prefix_rfl,List.prefix_rfl⟩

end Kernel

namespace FileSystem

variable {fs fs' fs'' : FileSystem} {p p' a q : Path} {c : Name}

/-- What is new are directories on the way to `p`. -/
def MadeAbove (p : Path) (fs fs' : FileSystem) : Prop :=
  ∀ r, fs'.node r = fs.node r ∨ ¬ fs.has r ∧ r <+: p ∧ fs'.isDir r

/-- Whatever stood anywhere still stands somewhere, different things at different places. -/
def Kept (fs fs' : FileSystem) : Prop :=
  ∃ f : Path → Path, (∀ r, fs.has r → fs'.node (f r) = fs.node r) ∧
    ∀ r r', fs.has r → fs.has r' → f r = f r' → r = r'

theorem MadeAbove.of_eq (h : fs' = fs) : MadeAbove p fs fs' := fun r => .inl (by rw [h])

theorem MadeAbove.node_of_has (h : MadeAbove p fs fs') {r : Path} (hr : fs.has r) :
    fs'.node r = fs.node r := (h r).resolve_right fun hnew => hnew.1 hr

theorem MadeAbove.trans (h : MadeAbove p fs fs') (h' : MadeAbove p fs' fs'') :
    MadeAbove p fs fs'' := by
  intro r
  obtain hsame | ⟨hno,hpre,hdir⟩ := h r
  · obtain hsame' | ⟨hno',hpre',hdir'⟩ := h' r
    · exact .inl (hsame'.trans hsame)
    · rw [FileSystem.has,hsame] at hno'
      exact .inr ⟨hno',hpre',hdir'⟩
  · refine .inr ⟨hno,hpre,?_⟩
    rwa [isDir,h'.node_of_has (has_of_isDir hdir)]

theorem madeAbove_put {m : Nat} (hdir : fs.isDir q) (hc : ProperName c) (hfree : ¬ fs.has (q ++ [c]))
    (hp : q ++ [c] <+: p) : MadeAbove p fs ((Change.put q c (.dir m)).apply fs) := by
  intro r
  have hnode := fun r => Change.node_put (@canPut_free fs q c (.dir m) ⟨hdir,hc⟩ hfree) r
  by_cases hr : r = q ++ [c]
  · subst hr
    refine .inr ⟨hfree,hp,?_⟩
    rw [isDir,hnode,if_pos rfl]
    rfl
  · rw [hnode,if_neg hr]
    exact .inl rfl

theorem linkless_made (h : fs.Awaits p) (hmade : MadeAbove p' fs fs') {r : Path} (hr : r <+: p)
    (t : Str) : fs'.node r ≠ some (.link t) := by
  intro hlink
  obtain hsame | ⟨_,_,hdir⟩ := hmade r
  · exact h.linkless r hr t (hsame ▸ hlink)
  · rw [isDir,hlink] at hdir
    cases hdir

theorem Awaits.made (h : fs.Awaits p') (hmade : MadeAbove p fs fs') (hp : ¬ p' <+: p) :
    fs'.Awaits p' := by
  refine ⟨fun hhas => ?_,fun r hr t => linkless_made h hmade hr t⟩
  obtain hsame | ⟨_,hpre,_⟩ := hmade p'
  · rw [FileSystem.has,hsame] at hhas
    exact h.free hhas
  · exact hp hpre

theorem Awaits.moved (h : fs.Awaits p) (hcan : fs.CanMove a q c) (hp : ¬ q ++ [c] <+: p) :
    ((Change.move a q c).apply fs).Awaits p := by
  have hnode : ∀ r, r <+: p → ((Change.move a q c).apply fs).node r =
      if a <+: r then none else fs.node r := by
    intro r hr
    rw [Change.node_move hcan,movedNode_away fun hpre => hp (hpre.trans hr)]
  refine ⟨fun hhas => ?_,fun r hr t hlink => ?_⟩
  · rw [FileSystem.has,hnode p List.prefix_rfl] at hhas
    split_ifs at hhas
    · cases hhas
    · exact h.free hhas
  · rw [hnode r hr] at hlink
    split_ifs at hlink
    exact h.linkless r hr t hlink

theorem Kept.refl (fs : FileSystem) : Kept fs fs := ⟨id,fun _ _ => rfl,fun _ _ _ _ h => h⟩

theorem Kept.trans (h : Kept fs fs') (h' : Kept fs' fs'') : Kept fs fs'' := by
  obtain ⟨f,hf,hinj⟩ := h
  obtain ⟨g,hg,hinj'⟩ := h'
  have hhas : ∀ r, fs.has r → fs'.has (f r) := fun r hr => by rwa [FileSystem.has,hf r hr]
  refine ⟨g ∘ f,fun r hr => (hg _ (hhas r hr)).trans (hf r hr),fun r r' hr hr' heq => ?_⟩
  exact hinj r r' hr hr' (hinj' _ _ (hhas r hr) (hhas r' hr') heq)

theorem MadeAbove.kept (h : MadeAbove p fs fs') : Kept fs fs' :=
  ⟨id,fun _ hr => h.node_of_has hr,fun _ _ _ _ heq => heq⟩

/-- A move to a place that was free before directories were made. -/
theorem MadeAbove.kept_move (h : MadeAbove p fs fs') (hcan : fs'.CanMove a q c)
    (hfree : ¬ fs.has (q ++ [c])) : Kept fs ((Change.move a q c).apply fs') := by
  have haway : ∀ r, fs.has r → ¬ q ++ [c] <+: r := fun r hr hpre => hfree (has_of_above hr hpre)
  refine ⟨(Change.move a q c).relocate,fun r hr => ?_,fun r r' hr hr' heq => ?_⟩
  · rw [Change.node_relocate_move hcan (haway r hr)]
    exact h.node_of_has hr
  · simp only [Change.relocate] at heq
    cases hb : below a r with
    | none =>
      cases hb' : below a r' with
      | none => simpa [hb,hb'] using heq
      | some s' =>
        simp only [hb,hb'] at heq
        exact absurd ⟨s',heq.symm⟩ (haway r hr)
    | some s =>
      cases hb' : below a r' with
      | none =>
        simp only [hb,hb'] at heq
        exact absurd ⟨s,heq⟩ (haway r' hr')
      | some s' =>
        simp only [hb,hb'] at heq
        rw [below_eq_some.mp hb,below_eq_some.mp hb',List.append_cancel_left heq]

end FileSystem

end Posix
