import RootHelper.Control.Interleaving

/-!
When a thread comes back that is left alone: the accesses that are left come to an end, and a
repetition does where, from each state that it may find, one pass through the body has a result.
-/

set_option autoImplicit false

namespace Control
namespace Thread

variable {Op : Type} {Answer : Op → Type} {ε σ α β : Type}

def Straight {α : Type} : Thread Op Answer α → Prop
  | .back _ => True
  | .access _ k => ∀ x, (k x).Straight
  | .again _ _ => False

theorem straight_ask (o : Op) : (ask o : Thread Op Answer (Answer o)).Straight := fun _ => trivial

theorem straight_pure (a : α) : (pure a : Thread Op Answer α).Straight := trivial

theorem Straight.thenDo {p : Thread Op Answer α} {f : α → Thread Op Answer β} (h : p.Straight)
    (hf : ∀ a, (f a).Straight) : (p >>= f).Straight := by
  induction p with
  | back a => exact hf a
  | access o k ih => exact fun x => ih x (h x) hf
  | again body k => exact h.elim

section Alone

variable (perform : (o : Op) → σ → Except ε (Answer o × σ)) (W : σ → Prop)

/-- The access leaves a state of `W` in `W`. -/
def Keeps (o : Op) : Prop := ∀ s x t, W s → perform o s = .ok (x,t) → W t

/-- Every access leaves `W` alone, and nothing is repeated. -/
def Looking {α : Type} : Thread Op Answer α → Prop
  | .back _ => True
  | .access o k => Keeps perform W o ∧ ∀ x, (k x).Looking
  | .again _ _ => False

/-- What comes of a program that repeats nothing and is not disturbed. -/
def run {α : Type} : Thread Op Answer α → σ → Option (α × σ)
  | .back a, s => some (a,s)
  | .access o k, s =>
    match perform o s with
    | .ok (x,t) => (k x).run t
    | .error _ => none
  | .again _ _, _ => none

/-- There is at most a repetition that ends in each state of `W`, and the accesses before it leave
`W` alone. -/
def Ends {α : Type} : Thread Op Answer α → Prop
  | .back _ => True
  | .access o k => (∀ x, (k x).Straight) ∨ (Keeps perform W o ∧ ∀ x, (k x).Ends)
  | .again body k => body.Looking perform W ∧ (∀ b, (k b).Straight) ∧
      ∀ s, W s → ∃ b t, body.run perform s = some (some b,t)

variable {perform W}

theorem Straight.ends {p : Thread Op Answer α} (h : p.Straight) : p.Ends perform W := by
  cases p with
  | back a => trivial
  | access o k => exact .inl h
  | again body k => exact h.elim

theorem looking_ask {o : Op} (h : Keeps perform W o) :
    (ask o : Thread Op Answer (Answer o)).Looking perform W := ⟨h,fun _ => trivial⟩

theorem Looking.thenDo {p : Thread Op Answer α} {f : α → Thread Op Answer β}
    (h : p.Looking perform W) (hf : ∀ a, (f a).Looking perform W) :
    (p >>= f).Looking perform W := by
  induction p with
  | back a => exact hf a
  | access o k ih => exact ⟨h.1,fun x => ih x (h.2 x) hf⟩
  | again body k => exact h.elim

theorem Looking.ends {p : Thread Op Answer α} {f : α → Thread Op Answer β}
    (h : p.Looking perform W) (hf : ∀ a, (f a).Ends perform W) : (p.bind f).Ends perform W := by
  induction p with
  | back a => exact hf a
  | access o k ih => exact .inr ⟨h.1,fun x => ih x (h.2 x) hf⟩
  | again body k => exact h.elim

theorem Ends.turn {p p' : Thread Op Answer α} {s t : σ} (h : p.Ends perform W)
    (hturn : p.turn perform s = .moved p' t) : p'.Ends perform W := by
  cases p with
  | back a => simp [Thread.turn] at hturn
  | access o k =>
    simp only [Thread.turn] at hturn
    split at hturn
    · rename_i x u _
      obtain ⟨rfl,rfl⟩ : k x = p' ∧ u = t := by simpa using hturn
      rcases h with h | ⟨-,h⟩
      · exact (h x).ends
      · exact h x
    · simp at hturn
  | again body k =>
    obtain ⟨rfl,rfl⟩ : unfold body k = p' ∧ s = t := by simpa [Thread.turn] using hturn
    refine h.1.ends fun r => ?_
    cases r with
    | none => exact h
    | some b => exact (h.2.1 b).ends

/-- The turns of a thread that nobody disturbs. -/
inductive Alone {α : Type} (perform : (o : Op) → σ → Except ε (Answer o × σ)) :
    Thread Op Answer α → σ → Thread Op Answer α → σ → Prop
  | refl {p : Thread Op Answer α} {s : σ} : Alone perform p s p s
  | step {p p' q : Thread Op Answer α} {s t u : σ} :
      p.turn perform s = .moved p' t → Alone perform p' t q u → Alone perform p s q u

theorem Alone.trans {p q r : Thread Op Answer α} {s t u : σ} (h : p.Alone perform s q t)
    (h' : q.Alone perform t r u) : p.Alone perform s r u := by
  induction h with
  | refl => exact h'
  | step hturn _ ih => exact .step hturn (ih h')

/-- None of its accesses fails as long as nobody disturbs it. -/
def Fine (perform : (o : Op) → σ → Except ε (Answer o × σ)) (p : Thread Op Answer α) (s : σ) : Prop :=
  ∀ q t, p.Alone perform s q t → ∀ e, q.turn perform t ≠ .stopped e

theorem Fine.later {p q : Thread Op Answer α} {s t : σ} (h : p.Fine perform s)
    (hq : p.Alone perform s q t) : q.Fine perform t := fun r u hr => h r u (hq.trans hr)

theorem Fine.access {o : Op} {k : Answer o → Thread Op Answer α} {s : σ}
    (h : (Thread.access o k).Fine perform s) : ∃ x t, perform o s = .ok (x,t) ∧
      (Thread.access o k).Alone perform s (k x) t := by
  cases ho : perform o s with
  | error e => exact absurd (by simp [Thread.turn,ho]) (h _ s .refl e)
  | ok r => exact ⟨r.1,r.2,rfl,.step (by simp [Thread.turn,ho]) .refl⟩

theorem Straight.comes_back {p : Thread Op Answer α} {s : σ} (h : p.Straight)
    (fine : p.Fine perform s) : ∃ a t, p.Alone perform s (.back a) t := by
  induction p generalizing s with
  | back a => exact ⟨a,s,.refl⟩
  | access o k ih =>
    obtain ⟨x,t,_,hmoved⟩ := fine.access
    obtain ⟨a,u,ha⟩ := ih x (h x) (fine.later hmoved)
    exact ⟨a,u,hmoved.trans ha⟩
  | again body k => exact h.elim

theorem alone_run {p : Thread Op Answer α} {f : α → Thread Op Answer β} {s t : σ} {a : α}
    (h : p.run perform s = some (a,t)) : (p.bind f).Alone perform s (f a) t := by
  induction p generalizing s with
  | back b =>
    obtain ⟨rfl,rfl⟩ : b = a ∧ s = t := by simpa [run] using h
    exact .refl
  | access o k ih =>
    simp only [run] at h
    split at h
    · rename_i x u ho
      exact .step (by simp [Thread.turn,Thread.bind,ho]) (ih x h)
    · simp at h
  | again body k => simp [run] at h

theorem Ends.comes_back {p : Thread Op Answer α} {s : σ} (h : p.Ends perform W) (hW : W s)
    (fine : p.Fine perform s) : ∃ a t, p.Alone perform s (.back a) t := by
  induction p generalizing s with
  | back a => exact ⟨a,s,.refl⟩
  | access o k ih =>
    obtain ⟨x,t,ho,hmoved⟩ := fine.access
    rcases h with h | ⟨keeps,h⟩
    · exact Straight.comes_back (p := access o k) h fine
    · obtain ⟨a,u,ha⟩ := ih x (h x) (keeps s x t hW ho) (fine.later hmoved)
      exact ⟨a,u,hmoved.trans ha⟩
  | again body k =>
    obtain ⟨_,hstraight,hrun⟩ := h
    obtain ⟨b,t,hb⟩ := hrun s hW
    have hmoved : (again body k).Alone perform s (k b) t := .step rfl (alone_run hb)
    obtain ⟨a,u,ha⟩ := (hstraight b).comes_back (fine.later hmoved)
    exact ⟨a,u,hmoved.trans ha⟩

end Alone
end Thread

namespace Pool

variable {Op : Type} {Answer : Op → Type} {ε σ ι : Type} {Call Result : ι → Type} [DecidableEq ι]
  {perform : (o : Op) → σ → Except ε (Answer o × σ)}
  {code : (i : ι) → Call i → Thread Op Answer (Result i)}
  {s t : Pool Op Answer ε σ Call Result} {i : ι} {c : Call i} {p : Thread Op Answer (Result i)}
  {W : ι → σ → Prop} {moving : ι → Prop}

theorem Reachable.ends {s₀ : Pool Op Answer ε σ Call Result}
    (hcode : ∀ i c, (code i c).Ends perform (W i)) (hstart : ∀ i, s₀.place i = none)
    (h : Reachable perform code moving s₀ s) (hplace : s.place i = some (c,p)) :
    p.Ends perform (W i) := by
  induction h generalizing i c p with
  | start => simp [hstart] at hplace
  | @step u v act _ _ hstep ih =>
    obtain ⟨-,hcase⟩ := step_cases hstep
    cases hcase with
    | @call j d hidle =>
      by_cases hj : i = j
      · subst hj
        obtain ⟨rfl,rfl⟩ : d = c ∧ code i d = p := by simpa [goes] using hplace
        exact hcode i d
      · exact ih (by simpa [goes,Function.update_of_ne hj] using hplace)
    | @turn j d q hat =>
      by_cases hj : i = j
      · subst hj
        cases hturn : q.turn perform u.shared with
        | returned r => simp [taken,goes,hturn] at hplace
        | moved q' w =>
          obtain ⟨rfl,rfl⟩ : d = c ∧ q' = p := by simpa [taken,goes,hturn] using hplace
          exact (ih hat).turn hturn
        | stopped e =>
          simp only [taken,hturn] at hplace
          exact ih hplace
      · refine ih (i := i) (c := c) ?_
        rw [← hplace]
        unfold taken
        split <;> simp [goes,Function.update_of_ne hj]

theorem alone_reachable {q : Thread Op Answer (Result i)} {v u : σ} (h : p.Alone perform v q u)
    (halive : s.stopped = none) (hshared : s.shared = v) (hplace : s.place i = some (c,p)) :
    ∃ t, Reachable perform code (· = i) s t ∧ t.stopped = none ∧ t.shared = u ∧
      t.place i = some (c,q) := by
  induction h generalizing s with
  | refl => exact ⟨s,.start,halive,hshared,hplace⟩
  | @step p p' q v w u hturn _ ih =>
    subst hshared
    have hstep : s.step perform code (.turn i) = some { s.goes i (some (c,p')) with shared := w } := by
      simp [step,halive,hplace,hturn,taken]
    have hmoved : Reachable perform code (· = i) s { s.goes i (some (c,p')) with shared := w } :=
      .step .start rfl hstep
    obtain ⟨t,ht,hrest⟩ := ih (s := { s.goes i (some (c,p')) with shared := w }) halive rfl (by simp [goes])
    exact ⟨t,hmoved.trans ht,hrest⟩

/-- A thread that ends comes back when it is left alone, unless an access of its own fails. -/
theorem comes_back {W : σ → Prop} (h : p.Ends perform W) (hW : W s.shared)
    (hplace : s.place i = some (c,p))
    (alive : ∀ t, Reachable perform code (· = i) s t → t.stopped = none) :
    ∃ t, Reachable perform code (· = i) s t ∧ t.place i = none := by
  have fine : p.Fine perform s.shared := by
    intro q u hq e he
    obtain ⟨t,ht,hstopped,hshared,hat⟩ := alone_reachable hq (alive s .start) rfl hplace
    have hstep : t.step perform code (.turn i) = some { t with stopped := some e } := by
      simp [step,hstopped,hat,hshared,he,taken]
    have hafter := alive _ (ht.step rfl hstep)
    simp at hafter
  obtain ⟨a,u,ha⟩ := h.comes_back hW fine
  obtain ⟨t,ht,hstopped,_,hat⟩ := alone_reachable ha (alive s .start) rfl hplace
  have hstep : t.step perform code (.turn i) = some (t.taken i c (.returned a)) := by
    simp [step,hstopped,hat,Thread.turn]
  exact ⟨_,ht.step rfl hstep,by simp [taken,goes]⟩

end Pool
end Control
