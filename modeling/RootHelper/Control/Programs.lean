import Mathlib.Init
import Mathlib.Logic.Relation

/-!
Programs that keep a state and may stop early: `EStateM`. `wp` says what a program leaves behind
in both cases, `Moves` that it only takes steps of a given order, `Lens.run` runs it on a part of
a larger state, and `rounds` repeats it until it has a result.
-/

set_option autoImplicit false

namespace Control

variable {ε σ τ α β : Type}

theorem ok_of_bind {x : Except ε α} {f : α → Except ε β} {b : β} (h : (x >>= f) = .ok b) :
    ∃ a, x = .ok a ∧ f a = .ok b := by
  cases x with
  | error e => exact absurd h (by simp [bind,Except.bind])
  | ok a => exact ⟨a,rfl,h⟩

/-- From `s`, `x` ends in a state of `Q` with its result, or stops early in a state of `E`. -/
def wp (x : EStateM ε σ α) (Q : α → σ → Prop) (E : ε → σ → Prop) (s : σ) : Prop :=
  match x s with
  | .ok a s' => Q a s'
  | .error e s' => E e s'

/-- What can be decided of results and states can be of a run. -/
instance {x : EStateM ε σ α} {Q : α → σ → Prop} {E : ε → σ → Prop} {s : σ}
    [∀ a t, Decidable (Q a t)] [∀ e t, Decidable (E e t)] : Decidable (wp x Q E s) :=
  match h : x s with
  | .ok a t => decidable_of_iff (Q a t) (by unfold wp; rw [h])
  | .error e t => decidable_of_iff (E e t) (by unfold wp; rw [h])

/-- However `x` ends, it leaves a state of `P`. -/
abbrev Leaves (P : σ → Prop) (x : EStateM ε σ α) (s : σ) : Prop :=
  wp x (fun _ t => P t) (fun _ t => P t) s

/-- The state `x` leaves. -/
def final (x : EStateM ε σ α) (s : σ) : σ :=
  match x s with
  | .ok _ t => t
  | .error _ t => t

theorem leaves_iff {P : σ → Prop} {x : EStateM ε σ α} {s : σ} : Leaves P x s ↔ P (final x s) := by
  unfold Leaves wp final
  cases x s <;> rfl

theorem final_ok {x : EStateM ε σ α} {s t : σ} {a : α} (h : x s = .ok a t) : final x s = t := by
  simp [final,h]

theorem ok_of_run_bind {x : EStateM ε σ α} {f : α → EStateM ε σ β} {s t : σ} {b : β}
    (h : (x >>= f) s = .ok b t) : ∃ a u, x s = .ok a u ∧ f a u = .ok b t := by
  change EStateM.bind x f s = .ok b t at h
  unfold EStateM.bind at h
  cases hx : x s with
  | ok a u => exact ⟨a,u,rfl,by simpa [hx] using h⟩
  | error e u => simp [hx] at h

theorem run_bind_ok {x : EStateM ε σ α} {f : α → EStateM ε σ β} {s t : σ} {a : α}
    (h : x s = .ok a t) : (x >>= f) s = f a t := by
  change EStateM.bind x f s = _
  simp [EStateM.bind,h]

/-- A program goes on alike from results that need not be told apart. -/
theorem bind_alike {x : EStateM ε σ β} {f g : β → EStateM ε σ α} {s : σ}
    (h : wp x (fun b t => f b t = g b t) (fun _ _ => True) s) : (x >>= f) s = (x >>= g) s := by
  change EStateM.bind x f s = EStateM.bind x g s
  unfold wp at h
  unfold EStateM.bind
  cases hx : x s with
  | ok b t =>
    rw [hx] at h
    exact h
  | error e t => rfl

theorem wp_result {x : EStateM ε σ α} {Q : α → σ → Prop} {E : ε → σ → Prop} {s : σ}
    (h : wp x (fun a t => x s = .ok a t → Q a t) (fun e t => x s = .error e t → E e t) s) :
    wp x Q E s := by
  unfold wp at *
  cases hx : x s with
  | ok a t => rw [hx] at h; exact h rfl
  | error e t => rw [hx] at h; exact h rfl

theorem wp_final {x : EStateM ε σ α} {Q : α → σ → Prop} {E : ε → σ → Prop} {s : σ}
    (h : wp x (fun a t => t = final x s → Q a t) (fun e t => t = final x s → E e t) s) :
    wp x Q E s := by
  unfold wp final at *
  cases hx : x s with
  | ok a t => rw [hx] at h; exact h rfl
  | error e t => rw [hx] at h; exact h rfl

section Rules

variable {Q Q' : α → σ → Prop} {E E' : ε → σ → Prop} {s : σ}

theorem wp_mono {x : EStateM ε σ α} (h : wp x Q E s) (hQ : ∀ a t, Q a t → Q' a t)
    (hE : ∀ e t, E e t → E' e t) : wp x Q' E' s := by
  unfold wp at *
  cases hx : x s with
  | ok a t => rw [hx] at h; exact hQ a t h
  | error e t => rw [hx] at h; exact hE e t h

theorem wp_trivial {x : EStateM ε σ α} (hQ : ∀ a t, Q a t) (hE : ∀ e t, E e t) : wp x Q E s := by
  unfold wp
  cases x s with
  | ok a t => exact hQ a t
  | error e t => exact hE e t

theorem wp_and {x : EStateM ε σ α} (h : wp x Q E s) (h' : wp x Q' E' s) :
    wp x (fun a t => Q a t ∧ Q' a t) (fun e t => E e t ∧ E' e t) s := by
  unfold wp at *
  cases hx : x s <;> simp_all

@[simp] theorem wp_pure {a : α} : wp (pure a : EStateM ε σ α) Q E s ↔ Q a s := Iff.rfl

@[simp] theorem wp_throw {e : ε} : wp (throw e : EStateM ε σ α) Q E s ↔ E e s := Iff.rfl

@[simp] theorem wp_bind {x : EStateM ε σ β} {f : β → EStateM ε σ α} :
    wp (x >>= f) Q E s ↔ wp x (fun b t => wp (f b) Q E t) E s := by
  change wp (EStateM.bind x f) Q E s ↔ _
  unfold wp EStateM.bind
  cases x s <;> rfl

@[simp] theorem wp_map {x : EStateM ε σ β} {f : β → α} :
    wp (f <$> x) Q E s ↔ wp x (fun b t => Q (f b) t) E s := by
  change wp (EStateM.map f x) Q E s ↔ _
  unfold wp EStateM.map
  cases x s <;> rfl

@[simp] theorem wp_get {Q : σ → σ → Prop} : wp (get : EStateM ε σ σ) Q E s ↔ Q s s := Iff.rfl

@[simp] theorem wp_set {Q : PUnit → σ → Prop} {t : σ} :
    wp (set t : EStateM ε σ PUnit) Q E s ↔ Q ⟨⟩ t := Iff.rfl

@[simp] theorem wp_modify {Q : PUnit → σ → Prop} {f : σ → σ} :
    wp (modify f : EStateM ε σ PUnit) Q E s ↔ Q ⟨⟩ (f s) := Iff.rfl

theorem wp_ite {c : Prop} [Decidable c] {x y : EStateM ε σ α} :
    wp (if c then x else y) Q E s ↔ (c → wp x Q E s) ∧ (¬ c → wp y Q E s) := by
  by_cases h : c <;> simp [h]

theorem ok_of_wp {x : EStateM ε σ α} (h : wp x Q (fun _ _ => False) s) :
    ∃ a t, x s = .ok a t ∧ Q a t := by
  unfold wp at h
  cases hx : x s with
  | ok a t => exact ⟨a,t,rfl,by simpa [hx] using h⟩
  | error e t => simp [hx] at h

theorem error_of_wp {x : EStateM ε σ α} (h : wp x (fun _ _ => False) E s) :
    ∃ e t, x s = .error e t ∧ E e t := by
  unfold wp at h
  cases hx : x s with
  | ok a t => simp [hx] at h
  | error e t => exact ⟨e,t,rfl,by simpa [hx] using h⟩

theorem wp_of_ok {x : EStateM ε σ α} {a : α} {t : σ} (h : x s = .ok a t) : wp x Q E s ↔ Q a t := by
  unfold wp
  rw [h]

/-- A handler that keeps what was done before the stop. -/
def attempt (x : EStateM ε σ α) (handler : ε → EStateM ε σ α) : EStateM ε σ α := fun s =>
  match x s with
  | .ok a t => .ok a t
  | .error e t => handler e t

@[simp] theorem wp_attempt {x : EStateM ε σ α} {handler : ε → EStateM ε σ α} :
    wp (attempt x handler) Q E s ↔ wp x Q (fun e t => wp (handler e) Q E t) s := by
  unfold wp attempt
  cases x s <;> rfl

end Rules

/-- However `x` ends, the state has moved along `R`. -/
def Moves (R : σ → σ → Prop) (x : EStateM ε σ α) : Prop := ∀ s, Leaves (R s) x s

section Moves

variable {R R' : σ → σ → Prop}

theorem Moves.mono {x : EStateM ε σ α} (h : Moves R x) (hR : ∀ s t, R s t → R' s t) :
    Moves R' x := fun s => wp_mono (h s) (fun _ t => hR s t) (fun _ t => hR s t)

theorem moves_pure [Std.Refl R] (a : α) : Moves R (pure a : EStateM ε σ α) := fun s => refl_of R s

theorem moves_throw [Std.Refl R] (e : ε) : Moves R (throw e : EStateM ε σ α) :=
  fun s => refl_of R s

theorem moves_get [Std.Refl R] : Moves R (get : EStateM ε σ σ) := fun s => refl_of R s

theorem moves_modify {f : σ → σ} (h : ∀ s, R s (f s)) :
    Moves R (modify f : EStateM ε σ PUnit) := h

/-- What a program does after a state that can be reached still counts from the start. -/
theorem Leaves.since [IsTrans σ R] {x : EStateM ε σ α} {s t : σ} (hst : R s t)
    (h : Leaves (R t) x t) : Leaves (R s) x t :=
  wp_mono h (fun _ _ htu => trans_of R hst htu) (fun _ _ htu => trans_of R hst htu)

theorem Moves.bind [IsTrans σ R] {x : EStateM ε σ β} {f : β → EStateM ε σ α} (hx : Moves R x)
    (hf : ∀ b, Moves R (f b)) : Moves R (x >>= f) := by
  intro s
  rw [Leaves,wp_bind]
  exact wp_mono (hx s) (fun b t hst => Leaves.since hst (hf b t)) (fun _ _ h => h)

theorem Moves.map {x : EStateM ε σ β} {f : β → α} (hx : Moves R x) : Moves R (f <$> x) := by
  intro s
  rw [Leaves,wp_map]
  exact hx s

theorem Moves.ite {c : Prop} [Decidable c] {x y : EStateM ε σ α} (hx : Moves R x)
    (hy : Moves R y) : Moves R (if c then x else y) := by
  split <;> assumption

theorem Moves.attempt [IsTrans σ R] {x : EStateM ε σ α} {handler : ε → EStateM ε σ α}
    (hx : Moves R x) (hh : ∀ e, Moves R (handler e)) : Moves R (attempt x handler) := by
  intro s
  rw [Leaves,wp_attempt]
  exact wp_mono (hx s) (fun _ _ h => h) (fun e t hst => Leaves.since hst (hh e t))

end Moves

/-- A place in `σ` where a `τ` is kept. -/
structure Lens (σ τ : Type) where
  get : σ → τ
  set : σ → τ → σ
  get_set : ∀ s t, get (set s t) = t
  set_get : ∀ s, set s (get s) = s
  set_set : ∀ s t u, set (set s t) u = set s u

def Lens.fst : Lens (σ × τ) σ where
  get s := s.1
  set s t := (t,s.2)
  get_set _ _ := rfl
  set_get _ := rfl
  set_set _ _ _ := rfl

@[simp] theorem Lens.fst_get (s : σ × τ) : (Lens.fst : Lens (σ × τ) σ).get s = s.1 := rfl

@[simp] theorem Lens.fst_set (s : σ × τ) (t : σ) :
    (Lens.fst : Lens (σ × τ) σ).set s t = (t,s.2) := rfl

def Lens.run (L : Lens σ τ) (x : EStateM ε τ α) : EStateM ε σ α := fun s =>
  match x (L.get s) with
  | .ok a t => .ok a (L.set s t)
  | .error e t => .error e (L.set s t)

@[simp] theorem wp_run {L : Lens σ τ} {x : EStateM ε τ α} {Q : α → σ → Prop} {E : ε → σ → Prop}
    {s : σ} : wp (L.run x) Q E s ↔
      wp x (fun a t => Q a (L.set s t)) (fun e t => E e (L.set s t)) (L.get s) := by
  unfold wp Lens.run
  cases x (L.get s) <;> rfl

theorem Lens.run_pure {L : Lens σ τ} (a : α) : L.run (pure a : EStateM ε τ α) = pure a := by
  funext s
  change EStateM.Result.ok a (L.set s (L.get s)) = _
  rw [L.set_get]
  rfl

theorem Lens.run_bind {L : Lens σ τ} {x : EStateM ε τ β} {f : β → EStateM ε τ α} :
    L.run (x >>= f) = L.run x >>= fun b => L.run (f b) := by
  funext s
  change L.run (EStateM.bind x f) s = EStateM.bind (L.run x) _ s
  simp only [Lens.run,EStateM.bind]
  cases x (L.get s) with
  | error e t => rfl
  | ok b t => simp only [L.get_set,L.set_set]

theorem Lens.run_map {L : Lens σ τ} {x : EStateM ε τ β} {f : β → α} :
    L.run (f <$> x) = f <$> L.run x := by
  funext s
  change L.run (EStateM.map f x) s = EStateM.map f (L.run x) s
  simp only [Lens.run,EStateM.map]
  cases x (L.get s) <;> rfl

theorem Moves.run {L : Lens σ τ} {x : EStateM ε τ α} {R : σ → σ → Prop} {T : τ → τ → Prop}
    (hx : Moves T x) (h : ∀ s t, T (L.get s) t → R s (L.set s t)) : Moves R (L.run x) := by
  intro s
  rw [Leaves,wp_run]
  exact wp_mono (hx (L.get s)) (fun _ t => h s t) (fun _ t => h s t)

/-- Repeats `body` until it has a result, at most `n` times. -/
def rounds (body : EStateM ε σ (Option β)) : Nat → EStateM ε σ (Option β)
  | 0 => pure none
  | n+1 => do
    match ← body with
    | some b => pure (some b)
    | none => rounds body n

/-- The states `body` is begun in: `s₀`, and what each round leaves that is begun in a state of
`ok` and has no result yet. -/
inductive Reached (body : EStateM ε σ (Option β)) (ok : σ → Prop) (s₀ : σ) : σ → Prop
  | start : Reached body ok s₀ s₀
  | round {s t : σ} : Reached body ok s₀ s → ok s → body s = .ok none t → Reached body ok s₀ t

section Rounds

variable {body : EStateM ε σ (Option β)} {I ok : σ → Prop} {Q : β → σ → Prop} {E : ε → σ → Prop}
  {s₀ s : σ}

theorem Reached.invariant (hI : I s₀)
    (step : ∀ s t, I s → ok s → body s = .ok none t → I t) (h : Reached body ok s₀ s) : I s := by
  induction h with
  | start => exact hI
  | round _ hok hb ih => exact step _ _ ih hok hb

theorem Reached.mono {ok' : σ → Prop} (h : Reached body ok s₀ s) (hok : ∀ s, ok s → ok' s) :
    Reached body ok' s₀ s := by
  induction h with
  | start => exact .start
  | round _ ho hb ih => exact .round ih (hok _ ho) hb

theorem Reached.trans {t : σ} (h : Reached body ok s₀ s) (h' : Reached body ok s t) :
    Reached body ok s₀ t := by
  induction h' with
  | start => exact h
  | round _ ho hb ih => exact ih.round ho hb

theorem Reached.first (h : Reached body ok s₀ s) :
    s = s₀ ∨ ∃ t, body s₀ = .ok none t ∧ Reached body ok t s := by
  induction h with
  | start => exact .inl rfl
  | round _ hok hb ih =>
    rename_i s t _
    right
    rcases ih with rfl | ⟨u,hu,hr⟩
    · exact ⟨t,hb,.start⟩
    · exact ⟨u,hu,hr.round hok hb⟩

/-- The states the first `n` rounds are begun in. -/
def begun (body : EStateM ε σ (Option β)) : Nat → σ → List σ
  | 0, _ => []
  | n+1, s => s :: match body s with
    | .ok none t => begun body n t
    | _ => []

def endsWithin (body : EStateM ε σ (Option β)) : Nat → σ → Bool
  | 0, _ => false
  | n+1, s => match body s with
    | .ok none t => endsWithin body n t
    | _ => true

theorem Reached.finishes {n : Nat} {b : β} {t : σ} (h : Reached body ok s₀ s)
    (hn : rounds body n s₀ = .ok (some b) t) : ∃ m, rounds body m s = .ok (some b) t := by
  induction h with
  | start => exact ⟨n,hn⟩
  | @round s u _ _ hb ih =>
    obtain ⟨m,hm⟩ := ih
    cases m with
    | zero =>
      change EStateM.Result.ok none s = .ok (some b) t at hm
      simp at hm
    | succ m =>
      obtain ⟨r,v,hv,hrest⟩ := ok_of_run_bind hm
      rw [hb] at hv
      cases hv
      exact ⟨m,hrest⟩

theorem Reached.mem_begun {n : Nat} (h : Reached body ok s₀ s) (he : endsWithin body n s₀) :
    s ∈ begun body n s₀ := by
  induction n generalizing s₀ with
  | zero => simp [endsWithin] at he
  | succ n ih =>
    rcases h.first with rfl | ⟨t,ht,hr⟩
    · simp [begun]
    · have hn : endsWithin body n t := by simpa [endsWithin,ht] using he
      simpa [begun,ht] using .inr (ih hr hn)

/-- A property of every round, from an invariant the rounds keep, holds of the whole. -/
theorem wp_rounds (step : ∀ s, I s →
      wp body (fun r t => r.elim (I t) fun b => Q b t) E s) (n : Nat) (hs : I s) :
    wp (rounds body n) (fun r t => r.elim (I t) fun b => Q b t) E s := by
  induction n generalizing s with
  | zero => exact hs
  | succ n ih =>
    rw [rounds,wp_bind]
    refine wp_mono (step s hs) (fun r t h => ?_) (fun _ _ h => h)
    cases r with
    | none => exact ih h
    | some b => exact h

/-- Some number of rounds is enough for a result in `Q`, or for a stop in `E`. -/
def Ends (body : EStateM ε σ (Option β)) (Q : β → σ → Prop) (E : ε → σ → Prop) (s : σ) : Prop :=
  ∃ n, wp (rounds body n) (fun r t => ∃ b, r = some b ∧ Q b t) E s

/-- It is enough when one round has the result, or leaves a state from which some number of rounds
is enough. -/
theorem Ends.of_round
    (h : wp body (fun r t => r.elim (Ends body Q E t) fun b => Q b t) E s) : Ends body Q E s := by
  unfold wp at h
  cases hx : body s with
  | error e t =>
    rw [hx] at h
    refine ⟨1,?_⟩
    rw [rounds,wp_bind]
    unfold wp
    rw [hx]
    exact h
  | ok r t =>
    rw [hx] at h
    cases r with
    | some b =>
      refine ⟨1,?_⟩
      rw [rounds,wp_bind]
      unfold wp
      rw [hx]
      exact ⟨b,rfl,h⟩
    | none =>
      obtain ⟨n,hn⟩ := h
      refine ⟨n+1,?_⟩
      rw [rounds,wp_bind]
      unfold wp at hn ⊢
      rw [hx]
      exact hn

theorem Moves.rounds {R : σ → σ → Prop} [Std.Refl R] [IsTrans σ R] (h : Moves R body) (n : Nat) :
    Moves R (rounds body n) := by
  induction n with
  | zero => exact moves_pure _
  | succ n ih =>
    refine h.bind fun r => ?_
    cases r with
    | none => exact ih
    | some b => exact moves_pure _

end Rounds
end Control
