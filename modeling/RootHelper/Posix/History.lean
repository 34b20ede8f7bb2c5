import RootHelper.Posix.Calls

/-!
Following a run through the calls it logged: `History ok fs es fs'` replays the events from `fs`
to `fs'`, each of them allowed by `ok` in the file system it met. `Grown ok` relates two states of
a program that lie on such a history.
-/

set_option autoImplicit false

namespace Posix
open Control

inductive History (ok : FileSystem → Event → Prop) : FileSystem → List Event → FileSystem → Prop
  | nil (fs : FileSystem) : History ok fs [] fs
  | cons {fs fs' : FileSystem} {e : Event} {es : List Event} :
      ok fs e → History ok (e.apply fs) es fs' → History ok fs (e :: es) fs'

namespace History

variable {ok ok' : FileSystem → Event → Prop} {fs fs' fs'' : FileSystem} {e : Event}
  {es es' : List Event}

theorem single (h : ok fs e) : History ok fs [e] (e.apply fs) := .cons h (.nil _)

theorem append (h : History ok fs es fs') (h' : History ok fs' es' fs'') :
    History ok fs (es ++ es') fs'' := by
  induction h with
  | nil => exact h'
  | cons he _ ih => exact .cons he (ih h')

theorem mono (h : History ok fs es fs') (hok : ∀ fs e, ok fs e → ok' fs e) :
    History ok' fs es fs' := by
  induction h with
  | nil => exact .nil _
  | cons he _ ih => exact .cons (hok _ _ he) ih

/-- An invariant of the allowed events may be used in judging them. -/
theorem strengthen {I : FileSystem → Prop} (h : History ok fs es fs') (hI : I fs)
    (step : ∀ fs e, I fs → ok fs e → I (e.apply fs) ∧ ok' fs e) :
    I fs' ∧ History ok' fs es fs' := by
  induction h with
  | nil => exact ⟨hI,.nil _⟩
  | cons he _ ih =>
    obtain ⟨hI',hok'⟩ := step _ _ hI he
    exact ⟨(ih hI').1,.cons hok' (ih hI').2⟩

theorem invariant {I : FileSystem → Prop} (h : History ok fs es fs') (hI : I fs)
    (step : ∀ fs e, I fs → ok fs e → I (e.apply fs)) : I fs' :=
  (h.strengthen hI fun fs e hI he => ⟨step fs e hI he,he⟩).1

theorem all {P : Event → Prop} (h : History ok fs es fs') (hP : ∀ fs e, ok fs e → P e) :
    ∀ e ∈ es, P e := by
  induction h with
  | nil => simp
  | cons he _ ih =>
    intro e' he'
    rcases List.mem_cons.mp he' with rfl | he'
    · exact hP _ _ he
    · exact ih e' he'

end History

theorem Event.node_apply {e : Event} {fs : FileSystem} {r : Path} (h : ¬ e.touches r) :
    (e.apply fs).node r = fs.node r := by
  unfold Event.apply
  cases hc : e.change with
  | none => rfl
  | some c => exact Change.node_apply_of_not_touches fun ht => h ⟨c,hc,ht⟩

theorem History.node_eq {ok : FileSystem → Event → Prop} {fs fs' : FileSystem} {es : List Event}
    {r : Path} (h : History ok fs es fs') (hr : ∀ e ∈ es, ¬ e.touches r) :
    fs'.node r = fs.node r := by
  induction h with
  | nil => rfl
  | cons _ _ ih =>
    rw [ih fun e he => hr e (List.mem_cons_of_mem _ he)]
    exact Event.node_apply (hr _ (by simp))

/-- `d'` comes after `d`, by allowed calls only. -/
def Grown (ok : FileSystem → Event → Prop) (d d' : Disk) : Prop :=
  ∃ es, d'.log = d.log ++ es ∧ History ok d.fs es d'.fs

section Grown

variable {ok ok' : FileSystem → Event → Prop}

instance : Std.Refl (Grown ok) := ⟨fun _ => ⟨[],by simp,.nil _⟩⟩

instance : IsTrans Disk (Grown ok) := by
  refine ⟨?_⟩
  rintro a b c ⟨es,hl,hh⟩ ⟨es',hl',hh'⟩
  exact ⟨es ++ es',by rw [hl',hl,List.append_assoc],hh.append hh'⟩

theorem Grown.mono {d d' : Disk} (h : Grown ok d d') (hok : ∀ fs e, ok fs e → ok' fs e) :
    Grown ok' d d' := by
  obtain ⟨es,hl,hh⟩ := h
  exact ⟨es,hl,hh.mono hok⟩

theorem grown_done {d : Disk} {e : Event} (h : ok d.fs e) : Grown ok d (d.done e) :=
  ⟨[e],rfl,.single h⟩

theorem grown_failed {d : Disk} {c : Call} {e : Errno} (h : ok d.fs ⟨c,none⟩) :
    Grown ok d (d.failed c e) := ⟨[⟨c,none⟩],rfl,.single h⟩

end Grown

/-- Calls that change the file system only in ways `P` allows. -/
def Changes (P : FileSystem → Change → Prop) (fs : FileSystem) (e : Event) : Prop :=
  ∀ c, e.change = some c → P fs c

def NoChange : FileSystem → Change → Prop := fun _ _ => False

/-- Nothing is changed on the way from `d` to `d'`. -/
def Quiet (d d' : Disk) : Prop := Grown (Changes NoChange) d d'

theorem Changes.mono {P P' : FileSystem → Change → Prop} {fs : FileSystem} {e : Event}
    (h : Changes P fs e) (hP : ∀ c, P fs c → P' fs c) : Changes P' fs e :=
  fun c hc => hP c (h c hc)

theorem History.fs_eq {fs fs' : FileSystem} {es : List Event}
    (h : History (Changes NoChange) fs es fs') : fs' = fs := by
  refine @History.invariant _ _ _ _ (fun f => f = fs) h rfl ?_
  intro f e hf he
  unfold Event.apply
  cases hc : e.change with
  | none => exact hf
  | some c => exact absurd (he c hc) id

theorem Quiet.fs_eq {d d' : Disk} (h : Quiet d d') : d'.fs = d.fs := by
  obtain ⟨_,_,hh⟩ := h
  exact hh.fs_eq

theorem Quiet.grown {P : FileSystem → Change → Prop} {d d' : Disk} (h : Quiet d d') :
    Grown (Changes P) d d' := h.mono fun _ _ he => he.mono fun _ hn => absurd hn id

instance : Std.Refl Quiet := inferInstanceAs (Std.Refl (Grown _))
instance : IsTrans Disk Quiet := inferInstanceAs (IsTrans Disk (Grown _))

def Change.relocate : Change → Path → Path
  | .move a q c, r =>
    match FileSystem.below a r with
    | some s => q ++ [c] ++ s
    | none => r
  | _, r => r

def Event.relocate (e : Event) (r : Path) : Path :=
  match e.change with
  | some c => c.relocate r
  | none => r

/-- Where the renames among `es` have taken what was at `r`. -/
def relocate (es : List Event) (r : Path) : Path := es.foldl (fun r e => e.relocate r) r

theorem Event.relocate_of_not_touches {e : Event} {r : Path} (h : ¬ e.touches r) :
    e.relocate r = r := by
  unfold Event.relocate
  cases hc : e.change with
  | none => rfl
  | some c =>
    cases c with
    | put p c n => rfl
    | erase p => rfl
    | move a q c =>
      have ha : ¬ a <+: r := fun ha => h ⟨_,hc,.inl ha⟩
      simp [Change.relocate,FileSystem.below_eq_none.mpr ha]

theorem relocate_untouched {es : List Event} {r : Path} (h : ∀ e ∈ es, ¬ e.touches r) :
    relocate es r = r := by
  induction es with
  | nil => rfl
  | cons e es ih =>
    have he := Event.relocate_of_not_touches (h e (by simp))
    calc relocate (e :: es) r = relocate es (e.relocate r) := rfl
      _ = r := by rw [he,ih fun e' he' => h e' (by simp [he'])]

/-- A move keeps everything that was not at or below its target. -/
theorem Change.node_relocate_move {fs : FileSystem} {a q r : Path} {c : Name}
    (h : fs.CanMove a q c) (hr : ¬ q ++ [c] <+: r) :
    ((move a q c).apply fs).node ((move a q c).relocate r) = fs.node r := by
  rw [node_move h]
  by_cases ha : a <+: r
  · obtain ⟨s,rfl⟩ := ha
    simp only [relocate,FileSystem.below_append,FileSystem.movedNode_at]
  · simp only [relocate,FileSystem.below_eq_none.mpr ha]
    rw [FileSystem.movedNode_away hr,if_neg ha]

namespace System

variable {ε α : Type} {sys : System} {c : Call} {d : Disk} {E : ε → Disk → Prop}
  {k : FileSystem → Except Errno (α × Option Change)} {Q : Except Errno α → Disk → Prop}

/-- What a call leaves, given what its effect was worked out to be. -/
def settled (c : Call) (d : Disk) (Q : Except Errno α → Disk → Prop) :
    Except Errno (α × Option Change) → Prop
  | .ok (a,ch) => Q (.ok a) (d.done ⟨c,ch⟩)
  | .error e => Q (.error e) (d.failed c e)

theorem wp_settle {r : Except Errno (α × Option Change)} :
    wp (settle c r) Q E d ↔ settled c d Q r := by
  unfold settle settled
  rcases r with e | ⟨a,ch⟩ <;> simp

theorem wp_look : wp (look c k) Q E d ↔ settled c d Q (k d.fs) := by
  simp only [look,wp_bind,wp_get,wp_settle]

theorem wp_perform_granted (h : sys.refuse d.tick = none) :
    wp (sys.perform c k) Q E d ↔ settled c d Q (k d.fs) := by
  simp only [perform,wp_bind,wp_get,h,wp_settle]

theorem wp_perform (hfail : ∀ e, Q (.error e) (d.failed c e))
    (hdone : ∀ a ch, k d.fs = .ok (a,ch) → Q (.ok a) (d.done ⟨c,ch⟩)) :
    wp (sys.perform c k) Q E d := by
  cases hr : sys.refuse d.tick with
  | some e =>
    simp only [perform,wp_bind,wp_get,hr,wp_settle]
    exact hfail e
  | none =>
    rw [wp_perform_granted hr]
    cases hk : k d.fs with
    | error e => exact hfail e
    | ok r => exact hdone r.1 r.2 hk

theorem moves_look {ok : FileSystem → Event → Prop} (hno : ∀ fs, ok fs ⟨c,none⟩)
    (hdone : ∀ fs a ch, k fs = .ok (a,ch) → ok fs ⟨c,ch⟩) :
    Moves (Grown ok) (look c k : EStateM ε Disk _) := by
  intro d
  rw [Leaves,wp_look]
  cases hk : k d.fs with
  | error e => exact grown_failed (hno _)
  | ok r => exact grown_done (hdone _ r.1 r.2 hk)

theorem moves_perform {ok : FileSystem → Event → Prop} (hno : ∀ fs, ok fs ⟨c,none⟩)
    (hdone : ∀ fs a ch, k fs = .ok (a,ch) → ok fs ⟨c,ch⟩) :
    Moves (Grown ok) (sys.perform c k : EStateM ε Disk _) := fun _ =>
  wp_perform (fun _ => grown_failed (hno _)) (fun a ch hk => grown_done (hdone _ a ch hk))

theorem moves_look_quiet (h : ∀ fs a ch, k fs = .ok (a,ch) → ch = none) :
    Moves Quiet (look c k : EStateM ε Disk _) :=
  moves_look (fun _ _ hc => by simp at hc) fun fs a ch hk _ hc => by simp [h fs a ch hk] at hc

theorem moves_perform_quiet (h : ∀ fs a ch, k fs = .ok (a,ch) → ch = none) :
    Moves Quiet (sys.perform c k : EStateM ε Disk _) :=
  moves_perform (fun _ _ hc => by simp at hc) fun fs a ch hk _ hc => by simp [h fs a ch hk] at hc

theorem lstatEffect_quiet {s : Str} {fs : FileSystem} {n : Node} {ch : Option Change}
    (h : sys.lstatEffect s fs = .ok (n,ch)) : ch = none := by
  unfold Kernel.lstatEffect at h
  cases hn : Kernel.nodeAt fs (sys.glance fs s) <;> simp [hn,bind,Except.bind] at h
  exact h.2.symm

theorem statEffect_quiet {s : Str} {fs : FileSystem} {n : Node} {ch : Option Change}
    (h : sys.statEffect s fs = .ok (n,ch)) : ch = none := by
  unfold Kernel.statEffect at h
  cases hn : Kernel.nodeAt fs (sys.follow fs s) <;> simp [hn,bind,Except.bind] at h
  exact h.2.symm

theorem opendirEffect_ok {order : List Name → List Name} {s : Str} {fs : FileSystem}
    {names : List Name} {ch : Option Change} (h : sys.opendirEffect order s fs = .ok (names,ch)) :
    ch = none ∧ ∃ p, sys.follow fs s = .ok p ∧ fs.isDir p ∧ names = order (fs.children p) := by
  unfold Kernel.opendirEffect at h
  cases hp : sys.follow fs s with
  | error e => simp [hp,bind,Except.bind] at h
  | ok p =>
    simp only [hp,bind,Except.bind] at h
    split_ifs at h with hd
    simp only [Except.ok.injEq,Prod.mk.injEq] at h
    exact ⟨h.2.symm,p,rfl,hd,h.1.symm⟩

theorem openReadEffect_ok {s : Str} {fs : FileSystem} {p : Path} {ch : Option Change}
    (h : sys.openReadEffect s fs = .ok (p,ch)) :
    ch = none ∧ sys.follow fs s = .ok p ∧ fs.has p := by
  unfold Kernel.openReadEffect at h
  cases hp : sys.follow fs s with
  | error e => simp [hp,bind,Except.bind] at h
  | ok q =>
    simp only [hp,bind,Except.bind] at h
    split_ifs at h with hd
    simp only [Except.ok.injEq,Prod.mk.injEq] at h
    obtain ⟨rfl,rfl⟩ := h
    exact ⟨rfl,rfl,hd⟩

theorem moves_lstat (s : Str) : Moves Quiet (sys.lstat s : EStateM ε Disk _) :=
  moves_look_quiet fun _ _ _ h => lstatEffect_quiet h

theorem moves_openRead (s : Str) : Moves Quiet (sys.openRead s : EStateM ε Disk _) :=
  moves_perform_quiet fun _ _ _ h => (openReadEffect_ok h).1

/-- The next call may open the directory `s`. -/
def Opens (sys : System) (d : Disk) (s : Str) : Prop :=
  sys.refuse d.tick = none ∧ ∃ p, sys.follow d.fs s = .ok p ∧ d.fs.isDir p

/-- No call is refused, and every transfer moves something. -/
structure Fair (sys : System) : Prop where
  grants : ∀ t, sys.refuse t = none
  moves : ∀ t, 0 < sys.transfer t

/-- Every transfer moves all it is asked to, up to 32 MiB. -/
def calm : System where
  cwd := []
  permits _ _ _ := true
  masked := id
  refuse _ := none
  order _ names := names
  order_perm _ _ := List.Perm.refl _
  transfer _ := 33554432
  dirSize _ := 4096

theorem calm_fair : calm.Fair := ⟨fun _ => rfl,fun _ => by simp [calm]⟩

theorem wp_opendir {s : Str} {Q : Except Errno (List Name) → Disk → Prop}
    (hfail : ∀ e d', Quiet d d' → ¬ sys.Opens d s → Q (.error e) d')
    (hdone : ∀ p names d', Quiet d d' → sys.Opens d s → sys.follow d.fs s = .ok p → d.fs.isDir p →
      names.Perm (d.fs.children p) → Q (.ok names) d') :
    wp (sys.opendir s) Q E d := by
  simp only [opendir,wp_bind,wp_get]
  cases hr : sys.refuse d.tick with
  | some e =>
    have hno : ¬ sys.Opens d s := fun h => by simp [h.1] at hr
    simp only [perform,wp_bind,wp_get,hr,wp_settle,settled]
    exact hfail e _ (grown_failed fun _ hc => by simp at hc) hno
  | none =>
    rw [wp_perform_granted hr]
    cases hk : sys.opendirEffect (sys.order d.tick) s d.fs with
    | error e =>
      refine hfail e _ (grown_failed fun _ hc => by simp at hc) fun h => ?_
      obtain ⟨_,p,hp,hd⟩ := h
      simp [Kernel.opendirEffect,hp,hd,bind,Except.bind] at hk
    | ok r =>
      obtain ⟨names,ch⟩ := r
      obtain ⟨rfl,p,hp,hd,rfl⟩ := opendirEffect_ok hk
      refine hdone p _ _ (grown_done fun _ hc => by simp at hc) ⟨hr,p,hp,hd⟩ hp hd ?_
      exact sys.order_perm _ _

end System

namespace Kernel

variable {k : Kernel} {fs : FileSystem} {s : Str} {ch : Option Change}

/-- What `remove` takes away is what a look at the path without following links shows. -/
theorem glance_of_removeEffect {u : Unit} (h : k.removeEffect s fs = .ok (u,ch)) :
    ∃ q, k.glance fs s = .ok q ∧ ch = some (.erase q) ∧ fs.CanErase q ∧ fs.has q := by
  obtain ⟨p,c,hs,hch,hhas,hempty⟩ := removeEffect_ok h
  refine ⟨p ++ [c],?_,hch,⟨by simp,hempty⟩,hhas⟩
  by_cases hsl : endsWithSlash (cstr s)
  · -- with a slash at the end only a directory is removed, and a directory is not a link
    have hdir : ∃ m, fs.node (p ++ [c]) = some (.dir m) := by
      unfold removeEffect at h
      simp only [hs,bind,Except.bind] at h
      cases hn : fs.node (p ++ [c]) with
      | none => simp [hn] at h
      | some n =>
        cases n with
        | dir m => exact ⟨m,rfl⟩
        | file content m => simp [hn,hsl] at h
        | link t => simp [hn,hsl] at h
    exact glance_of_spot_dir hs hdir hsl
  · rw [glance,if_neg hsl,hs]
    rfl

/-- `a`, which `s` names, may go to the name `c` of `q`, which `t` names, and replaces there at
most something of its own kind. Slashes at an end ask for a directory. -/
structure Renames (k : Kernel) (fs : FileSystem) (s t : Str) (a q : Path) (c : Name) : Prop where
  from_ : k.glance fs s = .ok a
  to_ : k.spot fs t = .ok (.name q c)
  can : fs.CanMove a q c
  kinds : fs.has (q ++ [c]) → (fs.isDir a ↔ fs.isDir (q ++ [c]))
  slashes : endsWithSlash (cstr s) ∨ endsWithSlash (cstr t) → fs.isDir a

theorem renameEffect_renames {t : Str} {u : Unit} (h : k.renameEffect s t fs = .ok (u,ch)) :
    ch = none ∨ ∃ a q c, ch = some (.move a q c) ∧ k.Renames fs s t a q c := by
  obtain ⟨p,c,q,d,hs,ht,hhas,hslash,⟨_,hch⟩ | ⟨hch,hcan,hkinds⟩⟩ := renameEffect_ok h
  · exact .inl hch
  · refine .inr ⟨p ++ [c],q,d,hch,?_,ht,hcan,hkinds,hslash⟩
    by_cases hsl : endsWithSlash (cstr s)
    · exact glance_of_spot_dir hs (FileSystem.isDir_iff.mp (hslash (.inl hsl))) hsl
    · rw [glance,if_neg hsl,hs]
      rfl

/-- What a rename puts or finds at `t` a look at `t` shows. -/
theorem glance_of_spot_renamed {t : Str} {q : Path} {c : Name} (h : k.spot fs t = .ok (.name q c))
    (hdir : endsWithSlash (cstr t) → fs.isDir (q ++ [c])) : k.glance fs t = .ok (q ++ [c]) := by
  by_cases hsl : endsWithSlash (cstr t)
  · exact glance_of_spot_dir h (FileSystem.isDir_iff.mp (hdir hsl)) hsl
  · rw [glance,if_neg hsl,h]
    rfl

theorem Renames.free {t : Str} {a q : Path} {c : Name} (h : k.Renames fs s t a q c)
    (ht : ∀ r, k.glance fs t = .ok r → ¬ fs.has r) : ¬ fs.has (q ++ [c]) := by
  intro hhas
  have hdir : endsWithSlash (cstr t) → fs.isDir (q ++ [c]) := fun hsl =>
    (h.kinds hhas).mp (h.slashes (.inr hsl))
  exact ht _ (glance_of_spot_renamed h.to_ hdir) hhas

/-- A rename to a path that shows nothing moves something to a free place. -/
theorem renameEffect_free {t : Str} {u : Unit} (h : k.renameEffect s t fs = .ok (u,ch))
    (ht : ∀ r, k.glance fs t = .ok r → ¬ fs.has r) :
    ∃ a q c, ch = some (.move a q c) ∧ k.Renames fs s t a q c ∧ ¬ fs.has (q ++ [c]) := by
  rcases renameEffect_renames h with hch | ⟨a,q,c,hch,hr⟩
  · obtain ⟨p,c,q,d,_,hspot,hhas,hslash,⟨hsame,_⟩ | ⟨hmove,_⟩⟩ := renameEffect_ok h
    · rw [hsame] at hhas hslash
      exact absurd hhas (ht _ (glance_of_spot_renamed hspot fun hsl => hslash (.inr hsl)))
    · simp [hch] at hmove
  · exact ⟨a,q,c,hch,hr,hr.free ht⟩

end Kernel
end Posix
