import RootHelper.CopyRound

/-!
Whole runs of the copy task: the states its rounds begin in, and what a run changes when every
round changes only that.
-/

set_option autoImplicit false

namespace RootHelper
open Posix Control

/-- A round of the run from `s₀` begins in `s`. -/
def InRun (env : CopyEnv) (s₀ s : CopyState) : Prop :=
  ∃ s₁, announce s₀ = .ok () s₁ ∧ Reached (copyRound env) (fun _ => True) s₁ s

variable {env : CopyEnv} {s₀ : CopyState}

theorem InRun.mem_begun {s : CopyState} {n : Nat} (h : InRun env s₀ s)
    (he : endsWithin (copyRound env) n (final announce s₀)) :
    s ∈ begun (copyRound env) n (final announce s₀) := by
  obtain ⟨s₁,hann,hreach⟩ := h
  have hs₁ : final announce s₀ = s₁ := by simp [final,hann]
  rw [hs₁] at he ⊢
  exact hreach.mem_begun he

theorem InRun.reached {s t : CopyState} (h : InRun env s₀ s)
    (ht : Reached (copyRound env) (fun _ => True) s t) : InRun env s₀ t := by
  obtain ⟨s₁,hann,hs⟩ := h
  exact ⟨s₁,hann,hs.trans ht⟩

theorem wp_announce {Q : Unit → CopyState → Prop} {E : Stop → CopyState → Prop}
    (hQ : ∀ k, Told s₀.sock k → k.closed = s₀.sock.closed → announce s₀ = .ok () { s₀ with sock := k } →
      Q () { s₀ with sock := k })
    (hE : ∀ k, Told s₀.sock k → E .threadExit { s₀ with sock := k }) : wp announce Q E s₀ := by
  have h : wp announce
      (fun _ t => ∃ k, Told s₀.sock k ∧ k.closed = s₀.sock.closed ∧ t = { s₀ with sock := k })
      (fun e t => e = .threadExit ∧ ∃ k, Told s₀.sock k ∧ t = { s₀ with sock := k }) s₀ := by
    simp only [announce,wp_bind,wp_get]
    refine wp_send (fun k hk hc => ?_) fun k hk => ⟨rfl,k,hk,rfl⟩
    refine wp_send (fun k' hk' hc' => ?_) fun k' hk' => ⟨rfl,k',trans_of Told hk hk',rfl⟩
    exact ⟨k',trans_of Told hk hk',hc'.trans hc,rfl⟩
  unfold wp at h ⊢
  cases hx : announce s₀ with
  | ok u t =>
    rw [hx] at h
    obtain ⟨k,hk,hc,rfl⟩ := h
    exact hQ k hk hc hx
  | error e t =>
    rw [hx] at h
    obtain ⟨rfl,k,hk,rfl⟩ := h
    exact hE k hk

def closedAfter : Option Ending → CopyState → CopyState
  | some .finished,t => { t with sock := { t.sock with closed := true } }
  | _,t => t

theorem wp_maincopy {Q : Option Ending → CopyState → Prop} {E : Stop → CopyState → Prop} {n : Nat}
    {s : CopyState} (h : wp (copyAll env n) (fun r t => Q r (closedAfter r t))
      (fun e t => if e = .threadExit then Q (some .finished) (closedAfter (some .finished) t)
        else E e t) s) :
    wp (maincopy env n) Q E s := by
  unfold maincopy
  rw [wp_bind,wp_attempt]
  refine wp_mono h (fun r t hr => ?_) fun e t he => ?_
  · cases r with
    | none => exact hr
    | some e =>
      cases e with
      | finished => exact hr
      | sourceGone => exact hr
  · cases e with
    | threadExit => exact he
    | crash => exact he
    | diverged => exact he

theorem leaves_maincopy {R : CopyState → CopyState → Prop} [IsTrans CopyState R]
    (haside : ∀ s t, t.disk = s.disk → R s t)
    (hround : ∀ s, InRun env s₀ s → R s₀ s → Leaves (R s) (copyRound env) s) (n : Nat) :
    Leaves (R s₀) (maincopy env n) s₀ := by
  have aside : ∀ {α : Type} (x : ConnM α), Moves R (onSock x) := by
    intro α x s
    rw [Leaves,onSock,wp_run]
    exact wp_trivial (fun _ _ => haside _ _ rfl) fun _ _ => haside _ _ rfl
  have still : ∀ {α : Type} (a : α), Moves R (pure a : CopyM α) := fun a s => haside s s rfl
  have rounds_grow : ∀ s₁, announce s₀ = .ok () s₁ → R s₀ s₁ →
      Leaves (R s₀) (rounds (copyRound env) n) s₁ := by
    intro s₁ hs₁ hg₁
    have hstep : ∀ s, InRun env s₀ s ∧ R s₀ s →
        wp (copyRound env) (fun r t => r.elim (InRun env s₀ t ∧ R s₀ t) fun _ => R s₀ t)
          (fun _ t => R s₀ t) s := by
      intro s hs
      obtain ⟨hrun,hg⟩ := hs
      have hnext := Leaves.since hg (hround s hrun hg)
      unfold Leaves wp at hnext
      unfold wp
      cases hx : copyRound env s with
      | error e t =>
        rw [hx] at hnext
        exact hnext
      | ok r t =>
        rw [hx] at hnext
        cases r with
        | some b => exact hnext
        | none =>
          obtain ⟨s₁,hann,hreach⟩ := hrun
          exact ⟨⟨s₁,hann,hreach.round trivial hx⟩,hnext⟩
    refine wp_mono (wp_rounds hstep n ⟨⟨s₁,hs₁,.start⟩,hg₁⟩) (fun r t ht => ?_) fun _ _ ht => ht
    cases r with
    | none => exact ht.2
    | some b => exact ht
  have all_grow : Leaves (R s₀) (copyAll env n) s₀ := by
    unfold copyAll
    rw [Leaves,wp_bind]
    refine wp_announce (fun k _ _ hk => ?_) fun k _ => haside _ _ rfl
    rw [wp_bind]
    refine wp_mono (rounds_grow _ hk (haside _ _ rfl)) (fun r t ht => ?_) fun _ _ ht => ht
    cases r with
    | none => exact ht
    | some e =>
      cases e with
      | sourceGone => exact ht
      | finished =>
        exact Leaves.since ht (((aside _).bind fun _ => (aside _).bind fun _ => still _) t)
  have ends : ∀ (r : Option Ending) (t : CopyState), R s₀ t → R s₀ (closedAfter r t) := by
    intro r t ht
    have hsame : (closedAfter r t).disk = t.disk := by
      unfold closedAfter
      split <;> rfl
    exact trans_of R ht (haside _ _ hsame)
  refine wp_maincopy (wp_mono all_grow (fun r t ht => ends r t ht) fun e t ht => ?_)
  split_ifs
  · exact ends _ t ht
  · exact ht

theorem grownBy_of_disk_eq {P : FileSystem → Change → Prop} {s t : CopyState}
    (h : t.disk = s.disk) : GrownBy P s t := by
  rw [GrownBy,h]
  exact refl_of (Grown (Changes P)) s.disk

/-- `/a`, and nothing else. -/
def oneFile : FileSystem :=
  .ofEntries [([],.dir 0o755),([text ['a']],.file (text ['x']) 0o644)] (by decide)

/-- `/a` and `/b`. -/
def twoFiles : FileSystem :=
  .ofEntries [([],.dir 0o755),([text ['a']],.file (text ['x']) 0o644),
    ([text ['b']],.file (text ['y']) 0o644)] (by decide)

/-- `/a` onto `/b`, where something stands, and the client lets it be overwritten. -/
def copyOver : CopyState :=
  .start twoFiles [0x01] [(text ['/','a'],text ['/','b'])] (fun _ => ⟨0,0,0⟩) ⟨1,0,1⟩

end RootHelper
