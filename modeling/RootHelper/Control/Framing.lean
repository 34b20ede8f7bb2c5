import Mathlib.Data.List.Forall2
import RootHelper.Control.Programs

/-!
Programs that read a value off the front of a stream or put one at its end. `at s bs` says which
symbols a state holds; what a program reads or writes composes like the symbols do.
-/

set_option autoImplicit false

namespace Control

variable {ε σ α β γ : Type} {at_ : σ → List γ → Prop}

/-- Where the stream begins with `bs`, `x` gives `a` and leaves the rest. -/
def Parses (at_ : σ → List γ → Prop) (x : EStateM ε σ α) (bs : List γ) (a : α) : Prop :=
  ∀ s rest, at_ s (bs ++ rest) →
    wp x (fun a' t => a' = a ∧ at_ t rest) (fun _ _ => False) s

/-- `x` puts `bs` behind what the stream holds. -/
def Prints (at_ : σ → List γ → Prop) (x : EStateM ε σ α) (bs : List γ) : Prop :=
  ∀ s cs, at_ s cs → wp x (fun _ t => at_ t (cs ++ bs)) (fun _ _ => False) s

theorem parses_pure (a : α) : Parses at_ (pure a : EStateM ε σ α) [] a := fun _ _ h => ⟨rfl,h⟩

theorem Parses.bind {x : EStateM ε σ β} {f : β → EStateM ε σ α} {bs cs : List γ} {b : β} {a : α}
    (hx : Parses at_ x bs b) (hf : Parses at_ (f b) cs a) : Parses at_ (x >>= f) (bs ++ cs) a := by
  intro s rest h
  rw [List.append_assoc] at h
  rw [wp_bind]
  refine wp_mono (hx s _ h) (fun b' t hb => ?_) fun _ _ h => h
  obtain ⟨rfl,ht⟩ := hb
  exact hf t rest ht

theorem Parses.skip {x : EStateM ε σ β} {f : β → EStateM ε σ α} {bs : List γ} {b : β} {a : α}
    (hx : Parses at_ x [] b) (hf : Parses at_ (f b) bs a) : Parses at_ (x >>= f) bs a := hx.bind hf

theorem Parses.before {x : EStateM ε σ β} {f : β → EStateM ε σ α} {bs rest : List γ} {b : β} {s : σ}
    {Q : α → σ → Prop} {E : ε → σ → Prop} (hx : Parses at_ x bs b) (h : at_ s (bs ++ rest))
    (hf : ∀ t, at_ t rest → wp (f b) Q E t) : wp (x >>= f) Q E s := by
  rw [wp_bind]
  refine wp_mono (hx s rest h) (fun b' t hb => ?_) fun _ _ h => h.elim
  obtain ⟨rfl,ht⟩ := hb
  exact hf t ht

/-- A read from a part of the state leaves what does not depend on the part. -/
theorem Parses.run {τ : Type} {L : Lens τ σ} {P : τ → Prop} {x : EStateM ε σ α} {bs : List γ} {a : α}
    (hx : Parses at_ x bs a) (hP : ∀ s t, P s → P (L.set s t)) :
    Parses (fun s bs => at_ (L.get s) bs ∧ P s) (L.run x) bs a := by
  intro s rest h
  rw [wp_run]
  refine wp_mono (hx _ rest h.1) (fun a' t ha => ?_) fun _ _ h => h
  exact ⟨ha.1,by rw [L.get_set]; exact ha.2,hP s t h.2⟩

theorem Parses.attempt {x : EStateM ε σ α} {handler : ε → EStateM ε σ α} {bs : List γ} {a : α}
    (hx : Parses at_ x bs a) : Parses at_ (attempt x handler) bs a := by
  intro s rest hs
  rw [wp_attempt]
  exact wp_mono (hx s rest hs) (fun _ _ ha => ha) fun _ _ he => he.elim

theorem Parses.map {x : EStateM ε σ β} {bs : List γ} {b : β} (hx : Parses at_ x bs b)
    (f : β → α) : Parses at_ (f <$> x) bs (f b) := by
  intro s rest h
  rw [wp_map]
  refine wp_mono (hx s rest h) (fun b' t hb => ?_) fun _ _ h => h
  obtain ⟨rfl,ht⟩ := hb
  exact ⟨rfl,ht⟩

/-- The last of several reads ends where the stream's part ends. -/
theorem Parses.last {x : EStateM ε σ β} {bs : List γ} {b : β} (hx : Parses at_ x bs b) (f : β → α) :
    Parses at_ (do let b ← x; pure (f b)) bs (f b) := by
  have h := hx.bind (f := fun b => pure (f b)) (parses_pure (f b))
  rwa [List.append_nil] at h

/-- Where the stream holds just `bs`, `x` stops with `e`. -/
def Stops (at_ : σ → List γ → Prop) (x : EStateM ε σ α) (bs : List γ) (e : ε) : Prop :=
  ∀ s, at_ s bs → wp x (fun _ _ => False) (fun e' _ => e' = e) s

theorem Parses.stops {x : EStateM ε σ β} {f : β → EStateM ε σ α} {bs cs : List γ} {b : β} {e : ε}
    (hx : Parses at_ x bs b) (hf : Stops at_ (f b) cs e) : Stops at_ (x >>= f) (bs ++ cs) e := by
  intro s h
  rw [wp_bind]
  refine wp_mono (hx s cs h) (fun b' t hb => ?_) fun _ _ h => h.elim
  obtain ⟨rfl,ht⟩ := hb
  exact hf t ht

theorem Stops.bind {x : EStateM ε σ β} {f : β → EStateM ε σ α} {bs : List γ} {e : ε}
    (hx : Stops at_ x bs e) : Stops at_ (x >>= f) bs e := by
  intro s h
  rw [wp_bind]
  exact wp_mono (hx s h) (fun _ _ h => h.elim) fun _ _ h => h

theorem Stops.map {x : EStateM ε σ β} {f : β → α} {bs : List γ} {e : ε} (hx : Stops at_ x bs e) :
    Stops at_ (f <$> x) bs e := by
  intro s h
  rw [wp_map]
  exact wp_mono (hx s h) (fun _ _ h => h.elim) fun _ _ h => h

theorem Stops.error {x : EStateM ε σ α} {bs : List γ} {e : ε} {s : σ} (hx : Stops at_ x bs e)
    (h : at_ s bs) : ∃ t, x s = .error e t := by
  have hstop := hx s h
  unfold wp at hstop
  cases hs : x s with
  | ok a t => simp [hs] at hstop
  | error e' t =>
    rw [hs] at hstop
    exact ⟨t,by rw [hstop]⟩

/-- Where the stream begins with `bs` and `x` has a result, what is left is the rest; `left` says so of
streams that may no longer be read. -/
def Consumes (at_ left : σ → List γ → Prop) (x : EStateM ε σ α) (bs : List γ) : Prop :=
  ∀ s rest, at_ s (bs ++ rest) → wp x (fun _ t => left t rest) (fun _ _ => True) s

section Consumes

variable {left : σ → List γ → Prop}

theorem Parses.consumes {x : EStateM ε σ α} {bs : List γ} {a : α} (hx : Parses at_ x bs a)
    (h : ∀ s cs, at_ s cs → left s cs) : Consumes at_ left x bs := fun s rest hs =>
  wp_mono (hx s rest hs) (fun _ t ha => h t rest ha.2) fun _ _ he => he.elim

theorem Parses.thenConsumes {x : EStateM ε σ β} {f : β → EStateM ε σ α} {bs cs : List γ} {b : β}
    (hx : Parses at_ x bs b) (hf : Consumes at_ left (f b) cs) :
    Consumes at_ left (x >>= f) (bs ++ cs) := by
  intro s rest h
  rw [List.append_assoc] at h
  exact hx.before h fun t ht => hf t rest ht

theorem Parses.skipConsumes {x : EStateM ε σ β} {f : β → EStateM ε σ α} {bs : List γ} {b : β}
    (hx : Parses at_ x [] b) (hf : Consumes at_ left (f b) bs) : Consumes at_ left (x >>= f) bs :=
  hx.thenConsumes hf

theorem Consumes.bind {x : EStateM ε σ β} {f : β → EStateM ε σ α} {bs cs : List γ}
    (hx : Consumes at_ at_ x bs) (hf : ∀ b, Consumes at_ left (f b) cs) :
    Consumes at_ left (x >>= f) (bs ++ cs) := by
  intro s rest h
  rw [List.append_assoc] at h
  rw [wp_bind]
  exact wp_mono (hx s _ h) (fun b t ht => hf b t rest ht) fun _ _ he => he

theorem Consumes.skip {x : EStateM ε σ β} {f : β → EStateM ε σ α} {bs : List γ}
    (hx : Consumes at_ at_ x []) (hf : ∀ b, Consumes at_ left (f b) bs) :
    Consumes at_ left (x >>= f) bs := hx.bind hf

theorem Consumes.last {x : EStateM ε σ β} {f : β → EStateM ε σ α} {bs : List γ}
    (hx : Consumes at_ at_ x bs) (hf : ∀ b, Consumes at_ left (f b) []) :
    Consumes at_ left (x >>= f) bs := by
  have whole := hx.bind hf
  rwa [List.append_nil] at whole

theorem Consumes.map {x : EStateM ε σ β} {bs : List γ} (hx : Consumes at_ left x bs) (f : β → α) :
    Consumes at_ left (f <$> x) bs := by
  intro s rest h
  rw [wp_map]
  exact hx s rest h

theorem Parses.answered {R : σ → σ → Prop} {x : EStateM ε σ β} {f : β → EStateM ε σ α} {bs : List γ}
    {b : β} (hleft : ∀ s t cs, at_ s cs → R s t → left t cs) (hx : Parses at_ x bs b)
    (hf : Moves R (f b)) : Consumes at_ left (x >>= f) bs := by
  intro s rest h
  refine hx.before h fun t ht => ?_
  exact wp_mono (hf t) (fun _ u hu => hleft t u rest ht hu) fun _ _ _ => trivial

/-- What a program consumes of a part of the state, it consumes of the state. -/
theorem Consumes.run {τ : Type} {L : Lens τ σ} {x : EStateM ε σ α} {bs : List γ}
    (hx : Consumes at_ left x bs) :
    Consumes (fun s bs => at_ (L.get s) bs) (fun s bs => left (L.get s) bs) (L.run x) bs := by
  intro s rest h
  rw [wp_run]
  refine wp_mono (hx _ rest h) (fun _ t ht => ?_) fun _ _ _ => trivial
  change left (L.get (L.set s t)) rest
  rw [L.get_set]
  exact ht

theorem consumes_throw {e : ε} {bs : List γ} :
    Consumes at_ left (throw e : EStateM ε σ α) bs := fun _ _ _ => trivial

end Consumes

theorem prints_pure (a : α) : Prints at_ (pure a : EStateM ε σ α) [] := fun s cs h => by
  rw [List.append_nil]
  exact h

theorem Prints.bind {x : EStateM ε σ β} {f : β → EStateM ε σ α} {bs cs : List γ}
    (hx : Prints at_ x bs) (hf : ∀ b, Prints at_ (f b) cs) : Prints at_ (x >>= f) (bs ++ cs) := by
  intro s ds h
  rw [wp_bind]
  refine wp_mono (hx s ds h) (fun b t ht => ?_) fun _ _ h => h
  rw [← List.append_assoc]
  exact hf b t _ ht

theorem Prints.before {x : EStateM ε σ β} {f : β → EStateM ε σ α} {bs cs : List γ} {s : σ}
    {Q : α → σ → Prop} {E : ε → σ → Prop} (hx : Prints at_ x bs) (h : at_ s cs)
    (hf : ∀ b t, at_ t (cs ++ bs) → wp (f b) Q E t) : wp (x >>= f) Q E s := by
  rw [wp_bind]
  exact wp_mono (hx s cs h) (fun b t ht => hf b t ht) fun _ _ h => h.elim

/-- What was printed can be parsed: the stream then holds what it held before. -/
theorem Prints.parses {x : EStateM ε σ β} {y : EStateM ε σ α} {bs : List γ} {a : α} {s : σ}
    (hx : Prints at_ x bs) (hy : Parses at_ y bs a) (h : at_ s []) :
    wp (do let _ ← x; y) (fun a' t => a' = a ∧ at_ t []) (fun _ _ => False) s := by
  rw [wp_bind]
  refine wp_mono (hx s [] h) (fun _ t ht => ?_) fun _ _ h => h
  exact hy t [] (by simpa using ht)

section Relays

variable {on : σ → List γ → List γ → Prop}

/-- Where the first stream begins with `bs`, `x` gives `a`, leaves the rest and puts `cs` behind
what the second holds. -/
def Relays (on : σ → List γ → List γ → Prop) (x : EStateM ε σ α) (bs cs : List γ) (a : α) : Prop :=
  ∀ s rest out, on s (bs ++ rest) out →
    wp x (fun a' t => a' = a ∧ on t rest (out ++ cs)) (fun _ _ => False) s

theorem relays_pure (a : α) : Relays on (pure a : EStateM ε σ α) [] [] a := fun _ _ out h =>
  ⟨rfl,by rw [List.append_nil]; exact h⟩

theorem Relays.bind {x : EStateM ε σ β} {f : β → EStateM ε σ α} {bs bs' cs cs' : List γ} {b : β}
    {a : α} (hx : Relays on x bs cs b) (hf : Relays on (f b) bs' cs' a) :
    Relays on (x >>= f) (bs ++ bs') (cs ++ cs') a := by
  intro s rest out h
  rw [List.append_assoc] at h
  rw [wp_bind]
  refine wp_mono (hx s _ out h) (fun b' t hb => ?_) fun _ _ h => h
  obtain ⟨rfl,ht⟩ := hb
  rw [← List.append_assoc]
  exact hf t rest _ ht

theorem Parses.relays {x : EStateM ε σ α} {bs : List γ} {a : α}
    (h : ∀ out, Parses (fun s bs => on s bs out) x bs a) : Relays on x bs [] a := by
  intro s rest out hs
  rw [List.append_nil]
  exact h out s rest hs

theorem Prints.relays {x : EStateM ε σ Unit} {cs : List γ}
    (h : ∀ inp, Prints (fun s cs => on s inp cs) x cs) : Relays on x [] cs () := fun s rest out hs =>
  wp_mono (h rest s out hs) (fun _ _ ht => ⟨rfl,ht⟩) fun _ _ h => h

theorem Relays.after {x : EStateM ε σ β} {f : β → EStateM ε σ α} {bs bs' cs : List γ} {b : β} {a : α}
    (hx : Relays on x bs [] b) (hf : Relays on (f b) bs' cs a) :
    Relays on (x >>= f) (bs ++ bs') cs a := hx.bind hf

theorem Relays.afterLast {x : EStateM ε σ β} {f : β → EStateM ε σ α} {bs cs : List γ} {b : β} {a : α}
    (hx : Relays on x bs [] b) (hf : Relays on (f b) [] cs a) : Relays on (x >>= f) bs cs a := by
  have h := hx.bind hf
  rwa [List.append_nil] at h

theorem Relays.then {x : EStateM ε σ β} {f : β → EStateM ε σ α} {bs cs cs' : List γ} {b : β} {a : α}
    (hx : Relays on x [] cs b) (hf : Relays on (f b) bs cs' a) :
    Relays on (x >>= f) bs (cs ++ cs') a := hx.bind hf

end Relays

section Turns

variable {ρ δ : Type}

def inTurn (turn : δ → EStateM ε σ Unit) : List δ → EStateM ε σ Unit
  | [] => pure ()
  | d :: ds => do
    turn d
    inTurn turn ds

theorem inTurn_cons {turn : δ → EStateM ε σ Unit} {d : δ} {ds : List δ} {s t : σ} :
    inTurn turn (d :: ds) s = .ok () t ↔ ∃ u, turn d s = .ok () u ∧ inTurn turn ds u = .ok () t := by
  constructor
  · intro h
    obtain ⟨_,u,hturn,hrest⟩ := ok_of_run_bind h
    exact ⟨u,hturn,hrest⟩
  · rintro ⟨u,hturn,hrest⟩
    rw [inTurn,run_bind_ok hturn]
    exact hrest

/-- How a turn takes a request whose bytes are next: all of it if it is `taken`, and if not, then less.
There is only a turn while the stream can be read. -/
structure Serves (at_ left : σ → List γ → Prop) (turn : δ → EStateM ε σ Unit) (bytes : ρ → List γ)
    (taken : δ → ρ → Prop) (d : δ) (r : ρ) : Prop where
  begins : ∀ s t bs, left s bs → turn d s = .ok () t → at_ s bs
  whole : taken d r → Consumes at_ left (turn d) (bytes r)
  part : ¬ taken d r → ∃ front rest, bytes r = front ++ rest ∧ rest ≠ [] ∧
    Consumes at_ left (turn d) front

variable {left : σ → List γ → Prop} {turn : δ → EStateM ε σ Unit} {bytes : ρ → List γ}
  {taken : δ → ρ → Prop} {ds : List δ} {rs : List ρ} {tail : List γ} {w : σ}

/-- After every turn the next request is next, just when those requests are taken for which the turn
comes to its end. -/
theorem boundaries_iff (hleft : ∀ s bs cs, left s bs → left s cs → bs = cs)
    (h : List.Forall₂ (Serves at_ left turn bytes taken) ds rs)
    (hw : left w (rs.flatMap bytes ++ tail)) :
    (∀ n t, inTurn turn (ds.take n) w = .ok () t → left t ((rs.drop n).flatMap bytes ++ tail)) ↔
      ∀ n t d r, inTurn turn (ds.take (n+1)) w = .ok () t → ds[n]? = some d → rs[n]? = some r →
        taken d r := by
  induction h generalizing w with
  | nil =>
    refine iff_of_true (fun n t hrun => ?_) fun n t d r _ hd => by simp at hd
    rw [List.take_nil] at hrun
    cases hrun
    simpa using hw
  | @cons d r ds rs hserves _ ih =>
    rw [List.flatMap_cons,List.append_assoc] at hw
    constructor
    · intro hall n t d' r' hrun hd hr
      obtain ⟨u,hturn,hrest⟩ := inTurn_cons.mp hrun
      have hnext : left u (rs.flatMap bytes ++ tail) := by
        have hone := hall 1 u (inTurn_cons.mpr ⟨u,hturn,rfl⟩)
        simpa using hone
      cases n with
      | zero =>
        cases hd
        cases hr
        by_contra htaken
        obtain ⟨front,rest,hbytes,hne,hpart⟩ := hserves.part htaken
        rw [hbytes,List.append_assoc] at hw
        have hcut := (wp_of_ok hturn).mp (hpart w _ (hserves.begins w u _ hw hturn))
        exact hne (List.append_left_eq_self.mp (hleft u _ _ hcut hnext))
      | succ n =>
        refine (ih hnext).mp (fun m v hv => ?_) n t d' r' hrest hd hr
        exact hall (m+1) v (inTurn_cons.mpr ⟨u,hturn,hv⟩)
    · intro hall n t hrun
      cases n with
      | zero =>
        cases hrun
        rwa [List.drop_zero,List.flatMap_cons,List.append_assoc]
      | succ n =>
        obtain ⟨u,hturn,hrest⟩ := inTurn_cons.mp hrun
        have htaken : taken d r := hall 0 u d r (inTurn_cons.mpr ⟨u,hturn,rfl⟩) rfl rfl
        have hnext := (wp_of_ok hturn).mp
          (hserves.whole htaken w _ (hserves.begins w u _ hw hturn))
        refine (ih hnext).mpr (fun m v d' r' hv => ?_) n t hrest
        exact hall (m+1) v d' r' (inTurn_cons.mpr ⟨u,hturn,hv⟩)

end Turns

section Performing

variable {ρ μ : Type}

def times (turn : EStateM ε σ Unit) : Nat → EStateM ε σ Unit
  | 0 => pure ()
  | n+1 => do
    turn
    times turn n

/-- All of them are performed, each where the ones before it have led, and all answers put together. -/
def performAll (perform : ρ → μ → μ × List γ) : List ρ → μ → μ × List γ
  | [], m => (m,[])
  | r :: rs, m =>
    let (m,answer) := perform r m
    let (m,answers) := performAll perform rs m
    (m,answer ++ answers)

/-- Whatever `m` it finds, a turn takes the request whole, performs it and answers; `on` says what is still
to be read and what has been sent. -/
def Performs (on : σ → μ → List γ → List γ → Prop) (turn : EStateM ε σ Unit) (bytes : ρ → List γ)
    (perform : ρ → μ → μ × List γ) (r : ρ) : Prop :=
  ∀ s m rest out, on s m (bytes r ++ rest) out →
    wp turn (fun _ t => on t (perform r m).1 rest (out ++ (perform r m).2)) (fun _ _ => False) s

theorem Performs.all {on : σ → μ → List γ → List γ → Prop} {turn : EStateM ε σ Unit} {bytes : ρ → List γ}
    {perform : ρ → μ → μ × List γ} {rs : List ρ} (h : ∀ r ∈ rs, Performs on turn bytes perform r) {s : σ}
    {m : μ} {rest out : List γ} (hs : on s m (rs.flatMap bytes ++ rest) out) :
    wp (times turn rs.length) (fun _ t => on t (performAll perform rs m).1 rest
      (out ++ (performAll perform rs m).2)) (fun _ _ => False) s := by
  induction rs generalizing s m out with
  | nil =>
    rw [List.flatMap_nil,List.nil_append] at hs
    rw [performAll,List.append_nil]
    exact hs
  | cons r rs ih =>
    rw [List.flatMap_cons,List.append_assoc] at hs
    rw [List.length_cons,times,wp_bind]
    refine wp_mono (h r List.mem_cons_self s m _ out hs) (fun _ t ht => ?_) fun _ _ h => h
    have hrest := ih (fun r hr => h r (List.mem_cons_of_mem _ hr)) ht
    rw [List.append_assoc] at hrest
    exact hrest

theorem performAll_keeps {perform : ρ → μ → μ × List γ} {I : μ → Prop} {rs : List ρ}
    (h : ∀ r ∈ rs, ∀ m, I m → I (perform r m).1) {m : μ} (hm : I m) : I (performAll perform rs m).1 := by
  induction rs generalizing m with
  | nil => exact hm
  | cons r rs ih =>
    exact ih (fun r hr => h r (List.mem_cons_of_mem _ hr)) (h r List.mem_cons_self m hm)

end Performing

end Control
