import RootHelper.Control.Programs

/-!
Programs by what they move on two sides at once: what has passed on one and what has passed on the
other, for each run that comes to its end.
-/

set_option autoImplicit false

namespace Control

variable {ε σ α β γ δ : Type}

/-- What passes between two states, and then between the second and a third, adds up. -/
class AddsUp (R : σ → σ → List γ → List δ → Prop) : Prop where
  none : ∀ s, R s s [] []
  both : ∀ {s t u l k l' k'}, R s t l k → R t u l' k' → R s u (l ++ l') (k ++ k')

/-- When the program ends, what has passed is as `P` says. -/
def Emits (R : σ → σ → List γ → List δ → Prop) (x : EStateM ε σ α)
    (P : α → List γ → List δ → Prop) : Prop :=
  ∀ s, wp x (fun a t => ∃ l k, P a l k ∧ R s t l k) (fun _ _ => True) s

section Rules

variable {R : σ → σ → List γ → List δ → Prop}

theorem Emits.mono {x : EStateM ε σ α} {P P' : α → List γ → List δ → Prop} (h : Emits R x P)
    (hP : ∀ a l k, P a l k → P' a l k) : Emits R x P' := fun s =>
  wp_mono (h s) (fun a _ ⟨l,k,ha,hR⟩ => ⟨l,k,hP a l k ha,hR⟩) fun _ _ h => h

theorem emits_map {x : EStateM ε σ β} {f : β → α} {P : β → List γ → List δ → Prop} (h : Emits R x P) :
    Emits R (f <$> x) fun a l k => ∃ b, f b = a ∧ P b l k := by
  intro s
  rw [wp_map]
  exact wp_mono (h s) (fun b _ ⟨l,k,hb,hR⟩ => ⟨l,k,⟨b,rfl,hb⟩,hR⟩) fun _ _ h => h

theorem emits_throw (e : ε) (P : α → List γ → List δ → Prop) :
    Emits R (throw e : EStateM ε σ α) P := fun _ => trivial

theorem emits_aside {T : σ → σ → Prop} (hT : ∀ s t, T s t → R s t [] []) {x : EStateM ε σ α}
    (h : Moves T x) : Emits R x fun _ l k => l = [] ∧ k = [] := fun s =>
  wp_mono (h s) (fun _ t hst => ⟨[],[],⟨rfl,rfl⟩,hT s t hst⟩) fun _ _ _ => trivial

variable [AddsUp R]

theorem emits_pure {a : α} {P : α → List γ → List δ → Prop} (h : P a [] []) :
    Emits R (pure a : EStateM ε σ α) P := fun s => ⟨[],[],h,AddsUp.none s⟩

theorem Emits.bind {x : EStateM ε σ β} {f : β → EStateM ε σ α} {P : β → List γ → List δ → Prop}
    {P' : α → List γ → List δ → Prop} (hx : Emits R x P)
    (hf : ∀ b l k, P b l k → Emits R (f b) fun a l' k' => P' a (l ++ l') (k ++ k')) :
    Emits R (x >>= f) P' := by
  intro s
  rw [wp_bind]
  refine wp_mono (hx s) (fun b t ⟨l,k,hb,hst⟩ => ?_) fun _ _ h => h
  refine wp_mono (hf b l k hb t) (fun a u ⟨l',k',ha,htu⟩ => ?_) fun _ _ h => h
  exact ⟨_,_,ha,AddsUp.both hst htu⟩

theorem Emits.before {x : EStateM ε σ β} {f : β → EStateM ε σ α} {l : List γ} {k : List δ}
    {P : α → List γ → List δ → Prop} (hx : Emits R x fun _ l' k' => l' = l ∧ k' = k)
    (hf : ∀ b, Emits R (f b) fun a l' k' => P a (l ++ l') (k ++ k')) : Emits R (x >>= f) P := by
  refine hx.bind fun b _ _ ⟨hl,hk⟩ => ?_
  subst hl hk
  exact hf b

end Rules

end Control
