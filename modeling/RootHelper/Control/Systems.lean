import Mathlib.Order.WellFounded

/-!
Systems that move by actions: what can be reached by steps of a given kind, invariants of it, and
single runs.
-/

set_option autoImplicit false

namespace Control

variable {σ α : Type}

/-- The states a system comes to from `s₀` while each of its steps is one of `ok`. -/
inductive Reachable (next : α → σ → Option σ) (ok : σ → α → Prop) (s₀ : σ) : σ → Prop
  | start : Reachable next ok s₀ s₀
  | step {s t : σ} {a : α} : Reachable next ok s₀ s → ok s a → next a s = some t →
      Reachable next ok s₀ t

/-- One action after the other, as long as each is one of `ok`. -/
def follow (next : α → σ → Option σ) (ok : σ → α → Prop) [∀ s a, Decidable (ok s a)] :
    List α → σ → Option σ
  | [], s => some s
  | a :: as, s => if ok s a then (next a s).bind (follow next ok as) else none

variable {next : α → σ → Option σ} {ok : σ → α → Prop} {s₀ s : σ}

theorem Reachable.invariant {I : σ → Prop} (start : I s₀)
    (step : ∀ s a t, I s → ok s a → next a s = some t → I t) (h : Reachable next ok s₀ s) :
    I s := by
  induction h with
  | start => exact start
  | step _ hok hnext ih => exact step _ _ _ ih hok hnext

theorem Reachable.follow [∀ s a, Decidable (ok s a)] {as : List α} {t : σ}
    (h : Reachable next ok s₀ s) (hrun : follow next ok as s = some t) :
    Reachable next ok s₀ t := by
  induction as generalizing s with
  | nil =>
    simp only [Control.follow,Option.some.injEq] at hrun
    exact hrun ▸ h
  | cons a as ih =>
    unfold Control.follow at hrun
    split at hrun
    · rename_i hok
      obtain ⟨u,hu,hrest⟩ := Option.bind_eq_some_iff.mp hrun
      exact ih (h.step hok hu) hrest
    · simp at hrun

theorem exists_reachable [∀ s a, Decidable (ok s a)] (p : σ → Bool) (as : List α)
    (h : (follow next ok as s₀).any p) : ∃ s, Reachable next ok s₀ s ∧ p s := by
  cases hrun : follow next ok as s₀ with
  | none => simp [hrun] at h
  | some s => exact ⟨s,Reachable.start.follow hrun,by simpa [hrun] using h⟩

section Streams

variable {st : Nat → σ} {μ : σ → Nat}

theorem exists_settled (h : ∀ n, st (n+1) = st n ∨ μ (st (n+1)) < μ (st n)) :
    ∃ n, ∀ m, n ≤ m → st m = st n := by
  obtain ⟨n,hmin⟩ : ∃ n, ∀ m, μ (st n) ≤ μ (st m) :=
    ⟨Function.argmin fun n => μ (st n),fun m => Nat.le_of_not_lt (Function.not_lt_argmin (fun n => μ (st n)) m)⟩
  refine ⟨n,fun m hm => ?_⟩
  induction m, hm using Nat.le_induction with
  | base => rfl
  | succ m _ ih =>
    rcases h m with hsame | hless
    · exact hsame.trans ih
    · rw [ih] at hless
      exact absurd hless (Nat.not_lt.mpr (hmin _))

theorem settled_of_fair {step : α → σ → σ} {act : Nat → α} {acts : α → Prop} {n : Nat}
    (hstep : ∀ n, st (n+1) = step (act n) (st n)) (hfair : ∀ a, acts a → ∀ n, ∃ m, n ≤ m ∧ act m = a)
    (hsettled : ∀ m, n ≤ m → st m = st n) (a : α) (ha : acts a) : step a (st n) = st n := by
  obtain ⟨m,hm,rfl⟩ := hfair a ha n
  have hnext := hstep m
  rw [hsettled m hm,hsettled (m+1) (Nat.le_succ_of_le hm)] at hnext
  exact hnext.symm

end Streams

end Control
