import Mathlib.Logic.Function.Basic
import Mathlib.Logic.Relation

/-!
Programs of threads that share a state, as trees of single accesses, and rules to judge one of them
while others change the state between its accesses: what they may do to it is a relation, as is
what its own accesses do. The relations are over states with whatever a proof keeps beside the
shared one; `view` forgets that.
-/

set_option autoImplicit false

namespace Control

/-- What a thread has still to do: come back, make an access, or repeat a body until it has a result. -/
inductive Thread (Op : Type) (Answer : Op → Type) : Type → Type 1
  | back {α : Type} (a : α) : Thread Op Answer α
  | access {α : Type} (o : Op) (k : Answer o → Thread Op Answer α) : Thread Op Answer α
  | again {α β : Type} (body : Thread Op Answer (Option β)) (k : β → Thread Op Answer α) :
      Thread Op Answer α

/-- A turn of a thread: it has come back, it goes on, or an access ends the process. -/
inductive Turn (Op : Type) (Answer : Op → Type) (ε σ α : Type) : Type 1
  | returned (a : α)
  | moved (p : Thread Op Answer α) (s : σ)
  | stopped (e : ε)

namespace Thread

variable {Op : Type} {Answer : Op → Type} {ε σ τ α β : Type}

def bind {α β : Type} : Thread Op Answer α → (α → Thread Op Answer β) → Thread Op Answer β
  | .back a, f => f a
  | .access o k, f => .access o fun x => (k x).bind f
  | .again body k, f => .again body fun b => (k b).bind f

instance : Monad (Thread Op Answer) where
  pure := .back
  bind := bind

def ask (o : Op) : Thread Op Answer (Answer o) := .access o .back

/-- The body once more, and what comes after it. -/
def unfold (body : Thread Op Answer (Option β)) (k : β → Thread Op Answer α) :
    Thread Op Answer α := body.bind fun r => r.elim (.again body k) k

def turn (perform : (o : Op) → σ → Except ε (Answer o × σ)) :
    Thread Op Answer α → σ → Turn Op Answer ε σ α
  | .back a, _ => .returned a
  | .access o k, s =>
    match perform o s with
    | .ok (x,t) => .moved (k x) t
    | .error e => .stopped e
  | .again body k, s => .moved (unfold body k) s

def asks : Thread Op Answer α → Option Op
  | .access o _ => some o
  | _ => none

section Safe

variable (perform : (o : Op) → σ → Except ε (Answer o × σ)) (view : τ → σ) (R : τ → τ → Prop)
  (G : Op → τ → τ → Prop)

/-- From `t` on, while the others move along `R`, each access succeeds and moves along `G`, and what
comes back is in `Q`. -/
def Safe {α : Type} : Thread Op Answer α → (α → τ → Prop) → τ → Prop
  | .back a, Q, t => ∀ t', R t t' → Q a t'
  | .access o k, Q, t => ∀ t', R t t' → ∃ x u, perform o (view t') = .ok (x,view u) ∧ G o t' u ∧
      (k x).Safe Q u
  | .again body k, Q, t => ∃ I : τ → Prop, I t ∧ (∀ u u', I u → R u u' → I u') ∧
      ∀ u, I u → body.Safe (fun r u' => r.elim (I u') fun b => (k b).Safe Q u') u

variable {perform view R G}

theorem Safe.rely [IsTrans τ R] {p : Thread Op Answer α} {Q : α → τ → Prop} {t t' : τ}
    (h : p.Safe perform view R G Q t) (ht : R t t') : p.Safe perform view R G Q t' := by
  cases p with
  | back a => exact fun u hu => h u (trans_of R ht hu)
  | access o k => exact fun u hu => h u (trans_of R ht hu)
  | again body k =>
    obtain ⟨I,hI,stable,step⟩ := h
    exact ⟨I,stable t t' hI ht,stable,step⟩

theorem Safe.mono {p : Thread Op Answer α} {Q Q' : α → τ → Prop} {t : τ}
    (h : p.Safe perform view R G Q t) (hQ : ∀ a u, Q a u → Q' a u) :
    p.Safe perform view R G Q' t := by
  induction p generalizing t with
  | back a => exact fun u hu => hQ a u (h u hu)
  | access o k ih =>
    intro u hu
    obtain ⟨x,v,hx,hG,hk⟩ := h u hu
    exact ⟨x,v,hx,hG,ih x hk hQ⟩
  | again body k ihbody ih =>
    obtain ⟨I,hI,stable,step⟩ := h
    refine ⟨I,hI,stable,fun u hu => ihbody (step u hu) fun r v hr => ?_⟩
    cases r with
    | none => exact hr
    | some b => exact ih b hr hQ

theorem Safe.bind [Std.Refl R] {p : Thread Op Answer α} {f : α → Thread Op Answer β}
    {Q : β → τ → Prop} {t : τ}
    (h : p.Safe perform view R G (fun a u => (f a).Safe perform view R G Q u) t) :
    (p.bind f).Safe perform view R G Q t := by
  induction p generalizing t with
  | back a => exact h t (refl_of R t)
  | access o k ih =>
    intro u hu
    obtain ⟨x,v,hx,hG,hk⟩ := h u hu
    exact ⟨x,v,hx,hG,ih x hk⟩
  | again body k _ ih =>
    obtain ⟨I,hI,stable,step⟩ := h
    refine ⟨I,hI,stable,fun u hu => (step u hu).mono fun r v hr => ?_⟩
    cases r with
    | none => exact hr
    | some b => exact ih b hr

theorem Safe.thenDo [Std.Refl R] {p : Thread Op Answer α} {f : α → Thread Op Answer β}
    {P : α → τ → Prop} {Q : β → τ → Prop} {t : τ} (h : p.Safe perform view R G P t)
    (hf : ∀ a u, P a u → (f a).Safe perform view R G Q u) :
    (p >>= f).Safe perform view R G Q t := Safe.bind (h.mono hf)

theorem safe_pure {a : α} {Q : α → τ → Prop} {t : τ} (h : ∀ u, R t u → Q a u) :
    (pure a : Thread Op Answer α).Safe perform view R G Q t := h

theorem safe_again {body : Thread Op Answer (Option β)} {Q : β → τ → Prop} {t : τ} (I : τ → Prop)
    (hI : I t) (stable : ∀ u u', I u → R u u' → I u')
    (step : ∀ u, I u → body.Safe perform view R G (fun r u' => r.elim (I u') fun b => ∀ v, R u' v → Q b v) u) :
    (again body back).Safe perform view R G Q t := ⟨I,hI,stable,step⟩

theorem Safe.weaken {R' : τ → τ → Prop} {G' : Op → τ → τ → Prop} {p : Thread Op Answer α}
    {Q : α → τ → Prop} {t : τ} (h : p.Safe perform view R G Q t) (hR : ∀ t u, R' t u → R t u)
    (hG : ∀ o t u, G o t u → G' o t u) : p.Safe perform view R' G' Q t := by
  induction p generalizing t with
  | back a => exact fun u hu => h u (hR t u hu)
  | access o k ih =>
    intro u hu
    obtain ⟨x,v,hx,hv,hk⟩ := h u (hR t u hu)
    exact ⟨x,v,hx,hG o u v hv,ih x hk⟩
  | again body k ihbody ih =>
    obtain ⟨I,hI,stable,step⟩ := h
    refine ⟨I,hI,fun u v hu huv => stable u v hu (hR u v huv),fun u hu => ?_⟩
    refine (ihbody (step u hu)).mono fun r v hr => ?_
    cases r with
    | none => exact hr
    | some b => exact ih b hr

theorem Safe.keeping {p : Thread Op Answer α} {Q : α → τ → Prop} {P : τ → Prop} {t : τ}
    (h : p.Safe perform view R G Q t) (hP : P t) (hR : ∀ t u, P t → R t u → P u)
    (hG : ∀ o t u, P t → G o t u → P u) :
    p.Safe perform view R G (fun a u => P u ∧ Q a u) t := by
  induction p generalizing t with
  | back a => exact fun u hu => ⟨hR t u hP hu,h u hu⟩
  | access o k ih =>
    intro u hu
    obtain ⟨x,v,hx,hv,hk⟩ := h u hu
    exact ⟨x,v,hx,hv,ih x hk (hG o u v (hR t u hP hu) hv)⟩
  | again body k ihbody ih =>
    obtain ⟨I,hI,stable,step⟩ := h
    refine ⟨fun u => P u ∧ I u,⟨hP,hI⟩,fun u v hu huv => ⟨hR u v hu.1 huv,stable u v hu.2 huv⟩,fun u hu => ?_⟩
    refine (ihbody (step u hu.2) hu.1).mono fun r v hr => ?_
    cases r with
    | none => exact hr
    | some b => exact ih b hr.2 hr.1

theorem Safe.turn [Std.Refl R] {p : Thread Op Answer α} {Q : α → τ → Prop} {t : τ}
    (h : p.Safe perform view R G Q t) :
    (∃ a, p.turn perform (view t) = .returned a ∧ Q a t) ∨
      (∃ p', p.asks = none ∧ p.turn perform (view t) = .moved p' (view t) ∧
        p'.Safe perform view R G Q t) ∨
      ∃ o p' u, p.asks = some o ∧ p.turn perform (view t) = .moved p' (view u) ∧ G o t u ∧
        p'.Safe perform view R G Q u := by
  cases p with
  | back a => exact .inl ⟨a,rfl,h t (refl_of R t)⟩
  | access o k =>
    obtain ⟨x,u,hx,hG,hk⟩ := h t (refl_of R t)
    refine .inr (.inr ⟨o,k x,u,rfl,?_,hG,hk⟩)
    simp only [Thread.turn,hx]
  | again body k =>
    obtain ⟨I,hI,stable,step⟩ := h
    refine .inr (.inl ⟨unfold body k,rfl,rfl,Safe.bind ((step t hI).mono fun r u hr => ?_)⟩)
    cases r with
    | none => exact ⟨I,hr,stable,step⟩
    | some b => exact hr

end Safe

end Thread

section Pools

variable {Op : Type} {Answer : Op → Type} {ε σ τ ι : Type} {Call Result : ι → Type}

/-- Threads that share a state: where each is in a call, and the calls it has come back from. -/
structure Pool (Op : Type) (Answer : Op → Type) (ε σ : Type) {ι : Type} (Call Result : ι → Type) where
  shared : σ
  place : (i : ι) → Option (Call i × Thread Op Answer (Result i))
  done : (i : ι) → List (Call i × Result i)
  stopped : Option ε

/-- A thread begins a call or takes a turn in the one it is in. -/
inductive PoolAct {ι : Type} (Call : ι → Type) where
  | call (i : ι) (c : Call i)
  | turn (i : ι)

def PoolAct.thread : PoolAct Call → ι
  | .call i _ => i
  | .turn i => i

namespace Pool

variable [DecidableEq ι] (perform : (o : Op) → σ → Except ε (Answer o × σ))
  (code : (i : ι) → Call i → Thread Op Answer (Result i))

def start (s : σ) : Pool Op Answer ε σ Call Result := ⟨s,fun _ => none,fun _ => [],none⟩

def goes (s : Pool Op Answer ε σ Call Result) (i : ι)
    (place : Option (Call i × Thread Op Answer (Result i))) : Pool Op Answer ε σ Call Result :=
  { s with place := Function.update s.place i place }

def taken (s : Pool Op Answer ε σ Call Result) (i : ι) (c : Call i) :
    Turn Op Answer ε σ (Result i) → Pool Op Answer ε σ Call Result
  | .returned r => { s.goes i none with done := Function.update s.done i (s.done i ++ [(c,r)]) }
  | .moved p t => { s.goes i (some (c,p)) with shared := t }
  | .stopped e => { s with stopped := some e }

def step (s : Pool Op Answer ε σ Call Result) :
    PoolAct Call → Option (Pool Op Answer ε σ Call Result)
  | .call i c =>
    if s.stopped.isNone ∧ (s.place i).isNone then some (s.goes i (some (c,code i c))) else none
  | .turn i =>
    if s.stopped.isNone then
      (s.place i).map fun place => s.taken i place.1 (place.2.turn perform s.shared)
    else none

/-- The access a thread is about to make. -/
def next (s : Pool Op Answer ε σ Call Result) (i : ι) : Option Op :=
  (s.place i).bind fun place => place.2.asks

/-- What the threads of `moving` come to from `s₀`, in any order. -/
inductive Reachable (moving : ι → Prop) (s₀ : Pool Op Answer ε σ Call Result) :
    Pool Op Answer ε σ Call Result → Prop
  | start : Reachable moving s₀ s₀
  | step {s t : Pool Op Answer ε σ Call Result} {act : PoolAct Call} :
      Reachable moving s₀ s → moving act.thread → s.step perform code act = some t →
      Reachable moving s₀ t

def runs (s : Pool Op Answer ε σ Call Result) :
    List (PoolAct Call) → Option (Pool Op Answer ε σ Call Result)
  | [] => some s
  | act :: acts => (s.step perform code act).bind fun t => t.runs acts

variable {perform code}

theorem Reachable.trans {moving : ι → Prop} {s₀ s t : Pool Op Answer ε σ Call Result}
    (h : Reachable perform code moving s₀ s) (h' : Reachable perform code moving s t) :
    Reachable perform code moving s₀ t := by
  induction h' with
  | start => exact h
  | step _ hm hs ih => exact ih.step hm hs

theorem Reachable.mono {moving moving' : ι → Prop} {s₀ s : Pool Op Answer ε σ Call Result}
    (h : Reachable perform code moving s₀ s) (hm : ∀ i, moving i → moving' i) :
    Reachable perform code moving' s₀ s := by
  induction h with
  | start => exact .start
  | step _ hi hs ih => exact ih.step (hm _ hi) hs

theorem reachable_runs {moving : ι → Prop} {s t : Pool Op Answer ε σ Call Result}
    {acts : List (PoolAct Call)} (h : s.runs perform code acts = some t)
    (hm : ∀ act ∈ acts, moving act.thread) : Reachable perform code moving s t := by
  induction acts generalizing s with
  | nil =>
    obtain rfl : s = t := by simpa [runs] using h
    exact .start
  | cons act acts ih =>
    obtain ⟨u,hu,hrest⟩ := Option.bind_eq_some_iff.mp h
    have hstep : Reachable perform code moving s u := .step .start (hm act (by simp)) hu
    exact hstep.trans (ih hrest fun a ha => hm a (by simp [ha]))

/-- What a step can do. -/
inductive StepCase (perform : (o : Op) → σ → Except ε (Answer o × σ))
    (code : (i : ι) → Call i → Thread Op Answer (Result i)) (s : Pool Op Answer ε σ Call Result) :
    PoolAct Call → Pool Op Answer ε σ Call Result → Prop
  | call {i : ι} {c : Call i} : s.place i = none →
      StepCase perform code s (.call i c) (s.goes i (some (c,code i c)))
  | turn {i : ι} {c : Call i} {p : Thread Op Answer (Result i)} : s.place i = some (c,p) →
      StepCase perform code s (.turn i) (s.taken i c (p.turn perform s.shared))

theorem step_cases {s t : Pool Op Answer ε σ Call Result} {act : PoolAct Call}
    (h : s.step perform code act = some t) : s.stopped = none ∧ StepCase perform code s act t := by
  cases act with
  | call i c =>
    simp only [step,Option.ite_none_right_eq_some,Option.isNone_iff_eq_none,Option.some.injEq] at h
    obtain ⟨⟨halive,hplace⟩,rfl⟩ := h
    exact ⟨halive,.call hplace⟩
  | turn i =>
    simp only [step,Option.ite_none_right_eq_some,Option.isNone_iff_eq_none,
      Option.map_eq_some_iff] at h
    obtain ⟨halive,⟨c,p⟩,hplace,rfl⟩ := h
    exact ⟨halive,.turn hplace⟩

end Pool

section Soundness

variable [DecidableEq ι] {perform : (o : Op) → σ → Except ε (Answer o × σ)}
  {code : (i : ι) → Call i → Thread Op Answer (Result i)} {view : τ → σ}
  {R : ι → τ → τ → Prop} {G : (i : ι) → List (Call i × Result i) → Call i → Op → τ → τ → Prop}
  {L : (i : ι) → List (Call i × Result i) → τ → Prop}
  {D : (i : ι) → List (Call i × Result i) → Call i → τ → Prop} {moving : ι → Prop}

/-- What each thread does is what the others allow for: then between its calls `L` holds of those
it has come back from, and during a call `D`. -/
structure Compatible (perform : (o : Op) → σ → Except ε (Answer o × σ))
    (code : (i : ι) → Call i → Thread Op Answer (Result i)) (view : τ → σ)
    (R : ι → τ → τ → Prop)
    (G : (i : ι) → List (Call i × Result i) → Call i → Op → τ → τ → Prop)
    (L : (i : ι) → List (Call i × Result i) → τ → Prop)
    (D : (i : ι) → List (Call i × Result i) → Call i → τ → Prop) (moving : ι → Prop) : Prop where
  refl : ∀ i, Std.Refl (R i)
  trans : ∀ i, IsTrans τ (R i)
  others : ∀ i l c j o t u, moving i → i ≠ j → G i l c o t u → R j t u
  stable : ∀ i l t u, L i l t → R i t u → L i l u
  stableDuring : ∀ i l c t u, D i l c t → R i t u → D i l c u
  starts : ∀ i l c t, moving i → L i l t → D i l c t
  own : ∀ i l c o t u, moving i → D i l c t → G i l c o t u → D i l c u
  safe : ∀ i l c t, moving i → L i l t →
    (code i c).Safe perform view (R i) (G i l c) (fun r u => L i (l ++ [(c,r)]) u) t

/-- Where thread `i` is fits the state `t`. -/
def PlaceSound (perform : (o : Op) → σ → Except ε (Answer o × σ)) (view : τ → σ)
    (R : ι → τ → τ → Prop)
    (G : (i : ι) → List (Call i × Result i) → Call i → Op → τ → τ → Prop)
    (L : (i : ι) → List (Call i × Result i) → τ → Prop)
    (D : (i : ι) → List (Call i × Result i) → Call i → τ → Prop)
    (s : Pool Op Answer ε σ Call Result) (i : ι) (t : τ) : Prop :=
  match s.place i with
  | none => L i (s.done i) t
  | some (c,p) => D i (s.done i) c t ∧
      p.Safe perform view (R i) (G i (s.done i) c) (fun r u => L i (s.done i ++ [(c,r)]) u) t

/-- No access has failed, and there is a state with what is kept beside the shared one in which
every thread is where it should be. -/
def Pool.Sound (perform : (o : Op) → σ → Except ε (Answer o × σ)) (view : τ → σ)
    (R : ι → τ → τ → Prop)
    (G : (i : ι) → List (Call i × Result i) → Call i → Op → τ → τ → Prop)
    (L : (i : ι) → List (Call i × Result i) → τ → Prop)
    (D : (i : ι) → List (Call i × Result i) → Call i → τ → Prop)
    (s : Pool Op Answer ε σ Call Result) (t : τ) : Prop :=
  s.stopped = none ∧ view t = s.shared ∧ ∀ i, PlaceSound perform view R G L D s i t

omit [DecidableEq ι] in
theorem PlaceSound.of_eq {s s' : Pool Op Answer ε σ Call Result} {i : ι} {t : τ}
    (h : PlaceSound perform view R G L D s i t) (hplace : s'.place i = s.place i)
    (hdone : s'.done i = s.done i) : PlaceSound perform view R G L D s' i t := by
  unfold PlaceSound at *
  rw [hplace,hdone]
  exact h

omit [DecidableEq ι] in
theorem PlaceSound.rely (C : Compatible perform code view R G L D moving)
    {s : Pool Op Answer ε σ Call Result} {i : ι} {t u : τ}
    (h : PlaceSound perform view R G L D s i t) (hu : R i t u) :
    PlaceSound perform view R G L D s i u := by
  unfold PlaceSound at *
  have := C.trans i
  split at h
  · exact C.stable i _ t u h hu
  · exact ⟨C.stableDuring i _ _ t u h.1 hu,h.2.rely hu⟩

theorem Pool.Sound.step (C : Compatible perform code view R G L D moving)
    {s s' : Pool Op Answer ε σ Call Result} {act : PoolAct Call} {t : τ}
    (h : s.Sound perform view R G L D t) (hmove : moving act.thread)
    (hstep : s.step perform code act = some s') : ∃ u, s'.Sound perform view R G L D u := by
  obtain ⟨hstopped,hview,hplaces⟩ := h
  obtain ⟨-,hcase⟩ := Pool.step_cases hstep
  cases hcase with
  | @call i c hplace =>
    have hi := hplaces i
    simp only [PlaceSound,hplace] at hi
    refine ⟨t,hstopped,hview,fun j => ?_⟩
    by_cases hj : j = i
    · subst hj
      simp only [PlaceSound,Pool.goes,Function.update_self]
      exact ⟨C.starts j _ c t hmove hi,C.safe j _ c t hmove hi⟩
    · exact (hplaces j).of_eq (Function.update_of_ne hj _ _) rfl
  | @turn i c p hplace =>
    have hi := hplaces i
    simp only [PlaceSound,hplace] at hi
    have := C.refl i
    obtain ⟨hduring,hsafe⟩ := hi
    rw [← hview]
    rcases hsafe.turn with ⟨r,hturn,hr⟩ | ⟨p',_,hturn,hp'⟩ | ⟨o,p',u,_,hturn,hG,hp'⟩
    · rw [hturn]
      refine ⟨t,hstopped,hview,fun j => ?_⟩
      by_cases hj : j = i
      · subst hj
        simp only [PlaceSound,Pool.taken,Pool.goes,Function.update_self]
        exact hr
      · exact (hplaces j).of_eq (Function.update_of_ne hj _ _) (Function.update_of_ne hj _ _)
    · rw [hturn]
      refine ⟨t,hstopped,rfl,fun j => ?_⟩
      by_cases hj : j = i
      · subst hj
        simp only [PlaceSound,Pool.taken,Pool.goes,Function.update_self]
        exact ⟨hduring,hp'⟩
      · exact (hplaces j).of_eq (Function.update_of_ne hj _ _) rfl
    · rw [hturn]
      refine ⟨u,hstopped,rfl,fun j => ?_⟩
      by_cases hj : j = i
      · subst hj
        simp only [PlaceSound,Pool.taken,Pool.goes,Function.update_self]
        exact ⟨C.own j _ c o t u hmove hduring hG,hp'⟩
      · have hrest := (hplaces j).rely C (C.others i _ c j o t u hmove (Ne.symm hj) hG)
        exact hrest.of_eq (Function.update_of_ne hj _ _) rfl

theorem Pool.Reachable.sound (C : Compatible perform code view R G L D moving)
    {s₀ s : Pool Op Answer ε σ Call Result} {t₀ : τ} (h₀ : s₀.Sound perform view R G L D t₀)
    (h : Pool.Reachable perform code moving s₀ s) : ∃ t, s.Sound perform view R G L D t := by
  induction h with
  | start => exact ⟨t₀,h₀⟩
  | step _ hmove hstep ih =>
    obtain ⟨t,ht⟩ := ih
    exact ht.step C hmove hstep

omit [DecidableEq ι] in
theorem Pool.Sound.next (C : Compatible perform code view R G L D moving)
    {s : Pool Op Answer ε σ Call Result} {t : τ} {i : ι} {o : Op}
    (h : s.Sound perform view R G L D t) (ho : s.next i = some o) :
    ∃ c u, G i (s.done i) c o t u := by
  obtain ⟨⟨c,p⟩,hplace,ho⟩ := Option.bind_eq_some_iff.mp ho
  have hi := h.2.2 i
  simp only [PlaceSound,hplace] at hi
  have := C.refl i
  cases p with
  | back a => simp [Thread.asks] at ho
  | again body k => simp [Thread.asks] at ho
  | access o' k =>
    obtain rfl : o' = o := by simpa [Thread.asks] using ho
    obtain ⟨x,u,_,hG,_⟩ := hi.2 t (refl_of (R i) t)
    exact ⟨c,u,hG⟩

end Soundness
end Pools
end Control
