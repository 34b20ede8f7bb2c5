import RootHelper.Control.Programs

/-!
Programs that note on the way what they do. The notes are kept beside the state; `Erases` says which
program is left without them, and `Notes` what may be noted between two states.
-/

set_option autoImplicit false

namespace Control

variable {ε σ τ κ α β : Type}

def note (e : κ) : EStateM ε (σ × List κ) Unit := modify fun s => (s.1,s.2 ++ [e])

def plain (x : EStateM ε σ α) : EStateM ε (σ × List κ) α := Lens.fst.run x

/-- A part of the state, with the notes. -/
def Lens.noting (L : Lens σ τ) : Lens (σ × List κ) (τ × List κ) where
  get s := (L.get s.1,s.2)
  set s t := (L.set s.1 t.1,t.2)
  get_set s t := by rw [L.get_set]
  set_get s := by rw [L.set_get]
  set_set s t u := by rw [L.set_set]

@[simp] theorem Lens.noting_get (L : Lens σ τ) (s : σ × List κ) :
    (L.noting : Lens (σ × List κ) _).get s = (L.get s.1,s.2) := rfl

@[simp] theorem Lens.noting_set (L : Lens σ τ) (s : σ × List κ) (t : τ × List κ) :
    L.noting.set s t = (L.set s.1 t.1,t.2) := rfl

section Rules

variable {Q : α → σ × List κ → Prop} {E : ε → σ × List κ → Prop} {s : σ × List κ}

theorem wp_note {e : κ} {Q : Unit → σ × List κ → Prop} :
    wp (note e) Q E s ↔ Q () (s.1,s.2 ++ [e]) := Iff.rfl

theorem wp_plain {x : EStateM ε σ α} :
    wp (plain x) Q E s ↔ wp x (fun a t => Q a (t,s.2)) (fun e t => E e (t,s.2)) s.1 := wp_run

end Rules

section Notes

def Notes (P : κ → Prop) (s t : σ × List κ) : Prop := ∃ new, t.2 = s.2 ++ new ∧ ∀ e ∈ new, P e

variable {P : κ → Prop}

instance : Std.Refl (Notes P : σ × List κ → σ × List κ → Prop) :=
  ⟨fun _ => ⟨[],(List.append_nil _).symm,fun _ he => absurd he List.not_mem_nil⟩⟩

instance : IsTrans (σ × List κ) (Notes P) where
  trans := by
    rintro s t u ⟨new,hnew,hall⟩ ⟨new',hnew',hall'⟩
    refine ⟨new ++ new',by rw [hnew',hnew,List.append_assoc],fun e he => ?_⟩
    exact (List.mem_append.mp he).elim (hall e) (hall' e)

theorem Notes.mono {P' : κ → Prop} {s t : σ × List κ} (h : Notes P s t) (hP : ∀ e, P e → P' e) :
    Notes P' s t := by
  obtain ⟨new,hnew,hall⟩ := h
  exact ⟨new,hnew,fun e he => hP e (hall e he)⟩

theorem Notes.all {s t : σ} {log : List κ} (h : Notes P (s,[]) (t,log)) : ∀ e ∈ log, P e := by
  obtain ⟨new,hnew,hall⟩ := h
  obtain rfl : log = new := hnew
  exact hall

/-- What is noted and was not before is noted after all that was. -/
theorem prefix_of_not_mem {log new before after : List κ} {e : κ}
    (h : log ++ new = before ++ e :: after) (he : e ∉ log) : log <+: before ∧ e ∈ new := by
  rcases List.append_eq_append_iff.mp h with ⟨more,rfl,hmore⟩ | ⟨more,rfl,hmore⟩
  · exact ⟨List.prefix_append _ _,by simp [hmore]⟩
  · cases more with
    | nil =>
      rw [List.nil_append] at hmore
      exact ⟨by simp,hmore ▸ List.mem_cons_self⟩
    | cons e' more =>
      obtain ⟨rfl,_⟩ := List.cons.inj hmore
      exact absurd (List.mem_append_right _ List.mem_cons_self) he

theorem notes_of_log_eq {s t : σ × List κ} (h : t.2 = s.2) : Notes P s t :=
  ⟨[],by rw [h,List.append_nil],fun _ he => absurd he List.not_mem_nil⟩

theorem notes_note {e : κ} (h : P e) : Moves (Notes P) (note e : EStateM ε (σ × List κ) Unit) :=
  moves_modify fun _ => ⟨[e],rfl,fun _ he => List.mem_singleton.mp he ▸ h⟩

theorem notes_plain (x : EStateM ε σ α) :
    Moves (Notes P) (plain x : EStateM ε (σ × List κ) α) := by
  intro s
  rw [Leaves,wp_plain]
  exact wp_trivial (fun _ _ => notes_of_log_eq rfl) fun _ _ => notes_of_log_eq rfl

end Notes

section Erasure

/-- But for what is noted `x` is `y`. -/
def Erases (x : EStateM ε (σ × List κ) α) (y : EStateM ε σ α) : Prop :=
  ∀ s log, ∃ log', x (s,log) = match y s with
    | .ok a t => .ok a (t,log')
    | .error e t => .error e (t,log')

variable {x : EStateM ε (σ × List κ) α} {y : EStateM ε σ α}

theorem Erases.ok {s t : σ} {log log' : List κ} {a : α} (h : Erases x y)
    (hx : x (s,log) = .ok a (t,log')) : y s = .ok a t := by
  obtain ⟨log'',hrun⟩ := h s log
  rw [hx] at hrun
  cases hy : y s with
  | ok b u =>
    rw [hy] at hrun
    cases hrun
    rfl
  | error e u => simp [hy] at hrun

theorem Erases.final {s : σ} {log : List κ} (h : Erases x y) :
    (Control.final x (s,log)).1 = Control.final y s := by
  obtain ⟨log',hrun⟩ := h s log
  unfold Control.final
  rw [hrun]
  cases y s <;> rfl

theorem Erases.wp {Q : α → σ → Prop} {E : ε → σ → Prop} {s : σ × List κ} (h : Erases x y)
    (hy : Control.wp y Q E s.1) : Control.wp x (fun a t => Q a t.1) (fun e t => E e t.1) s := by
  obtain ⟨log',hrun⟩ := h s.1 s.2
  unfold Control.wp at hy ⊢
  rw [show s = (s.1,s.2) from rfl,hrun]
  cases hs : y s.1 with
  | ok a t =>
    rw [hs] at hy
    exact hy
  | error e t =>
    rw [hs] at hy
    exact hy

theorem erases_pure (a : α) : Erases (pure a : EStateM ε (σ × List κ) α) (pure a) :=
  fun _ log => ⟨log,rfl⟩

theorem erases_throw (e : ε) : Erases (throw e : EStateM ε (σ × List κ) α) (throw e) :=
  fun _ log => ⟨log,rfl⟩

theorem erases_plain (y : EStateM ε σ α) : Erases (plain y : EStateM ε (σ × List κ) α) y := by
  intro s log
  refine ⟨log,?_⟩
  unfold plain Lens.run
  rw [Lens.fst_get]
  cases y s <;> rfl

theorem Erases.bind {f : α → EStateM ε (σ × List κ) β} {g : α → EStateM ε σ β}
    (h : Erases x y) (hf : ∀ a, Erases (f a) (g a)) : Erases (x >>= f) (y >>= g) := by
  intro s log
  obtain ⟨log',hx⟩ := h s log
  change ∃ log'', EStateM.bind x f (s,log) = match EStateM.bind y g s with
    | .ok a t => .ok a (t,log'')
    | .error e t => .error e (t,log'')
  unfold EStateM.bind
  rw [hx]
  cases y s with
  | ok a t => exact hf a t log'
  | error e t => exact ⟨log',rfl⟩

theorem Erases.note {e : κ} {f : Unit → EStateM ε (σ × List κ) β} {y : EStateM ε σ β}
    (h : Erases (f ()) y) : Erases (note e >>= f) y := fun s log => h s (log ++ [e])

theorem Erases.ite {c : Prop} [Decidable c] {x' : EStateM ε (σ × List κ) α} {y' : EStateM ε σ α}
    (h : Erases x y) (h' : Erases x' y') : Erases (if c then x else x') (if c then y else y') := by
  split <;> assumption

theorem Erases.attempt {handler : ε → EStateM ε (σ × List κ) α} {handler' : ε → EStateM ε σ α}
    (h : Erases x y) (hh : ∀ e, Erases (handler e) (handler' e)) :
    Erases (attempt x handler) (attempt y handler') := by
  intro s log
  obtain ⟨log',hx⟩ := h s log
  unfold Control.attempt
  rw [hx]
  cases y s with
  | ok a t => exact ⟨log',rfl⟩
  | error e t => exact hh e t log'

theorem Erases.run {L : Lens τ σ} (h : Erases x y) : Erases (L.noting.run x) (L.run y) := by
  intro t log
  obtain ⟨log',hx⟩ := h (L.get t) log
  refine ⟨log',?_⟩
  unfold Lens.run
  rw [Lens.noting_get,hx]
  cases y (L.get t) <;> rfl

end Erasure

section Rounds

variable {body : EStateM ε (σ × List κ) (Option β)} {body' : EStateM ε σ (Option β)}

theorem Erases.rounds (h : Erases body body') (n : Nat) :
    Erases (rounds body n) (rounds body' n) := by
  induction n with
  | zero => exact erases_pure none
  | succ n ih =>
    refine h.bind fun r => ?_
    cases r with
    | none => exact ih
    | some b => exact erases_pure _

/-- A run notes only what a round notes that begins in a state the run comes through. -/
theorem notes_rounds {P : κ → Prop} {s₀ : σ} (h : Erases body body')
    (hnotes : ∀ s log, Reached body' (fun _ => True) s₀ s → Leaves (Notes P (s,log)) body (s,log))
    (n : Nat) (log : List κ) : Leaves (Notes P (s₀,log)) (Control.rounds body n) (s₀,log) := by
  have hstep : ∀ s, Reached body' (fun _ => True) s₀ s.1 ∧ Notes P (s₀,log) s →
      wp body (fun r t => r.elim (Reached body' (fun _ => True) s₀ t.1 ∧ Notes P (s₀,log) t)
        fun _ => Notes P (s₀,log) t) (fun _ t => Notes P (s₀,log) t) s := by
    intro s hs
    obtain ⟨hreach,hsofar⟩ := hs
    have hnext := Leaves.since hsofar (hnotes s.1 s.2 hreach)
    refine wp_result (wp_mono hnext (fun r t ht hrun => ?_) fun _ _ ht _ => ht)
    cases r with
    | none => exact ⟨hreach.round trivial (h.ok hrun),ht⟩
    | some b => exact ht
  refine wp_mono (wp_rounds hstep n ⟨.start,refl_of (Notes P) _⟩) (fun r t ht => ?_) fun _ _ ht => ht
  cases r with
  | none => exact ht.2
  | some b => exact ht

end Rounds

end Control
