import RootHelper.CopyRun

/-!
How the progress stream of a copy task ends, also when others change the file system while the task
runs.
-/

set_option autoImplicit false

namespace RootHelper
open Posix Control

variable {env : CopyEnv} {s₀ : CopyState}

def meddle (others : Disk → FileSystem) : CopyM Unit :=
  onDisk (modify fun d => { d with fs := others d })

def copyRoundAmid (env : CopyEnv) (others : Disk → FileSystem) : CopyM (Option Ending) := do
  meddle others
  copyRound env

/-- `copyAll` with `round` for its rounds. -/
def copyAllOf (round : CopyM (Option Ending)) (n : Nat) : CopyM (Option Ending) := do
  announce
  match ← rounds round n with
  | some .finished => do
    send (.u64 EOFs_ind)
    onSock (sendBaseResponse 0 0)
    pure (some .finished)
  | r => pure r

/-- `maincopy` with `round` for its rounds. -/
def maincopyOf (round : CopyM (Option Ending)) (n : Nat) : CopyM (Option Ending) := do
  let r ← attempt (copyAllOf round n) fun e =>
    match e with
    | .threadExit => pure (some .finished)
    | e => throw e
  match r with
  | some .finished => onSock close
  | _ => pure ()
  pure r

theorem maincopy_eq_maincopyOf (n : Nat) : maincopy env n = maincopyOf (copyRound env) n := rfl

theorem copyRoundAmid_alone : copyRoundAmid env Disk.fs = copyRound env := rfl

def SourceThere (env : CopyEnv) (s : CopyState) : Prop :=
  ∀ pair ∈ s.S.head?, efdAt env.toKernel s.disk.fs pair.1 ≠ .none

def CopyState.amid (others : Disk → FileSystem) (s : CopyState) : CopyState :=
  { s with disk := { s.disk with fs := others s.disk } }

theorem copyRound_ends {s : CopyState} (hthere : SourceThere env s) :
    wp (copyRound env) (fun r _ => ∀ e, r = some e → e = .finished) (fun _ _ => True) s := by
  unfold copyRound
  rw [wp_bind,wp_get]
  cases hS : s.S with
  | nil =>
    intro e he
    exact (Option.some.inj he).symm
  | cons pair rest =>
    have hefd : efdAt env.toKernel s.disk.fs pair.1 ≠ .none := hthere pair (by rw [hS]; rfl)
    simp only
    rw [wp_bind,wp_set,wp_bind,wp_onDisk]
    refine wp_existsIsFileIsDir_ fun d _ => ?_
    have going : ∀ (x : CopyM Unit) (t : CopyState), wp (do
        x
        pure (none : Option Ending)) (fun r _ => ∀ e, r = some e → e = .finished)
        (fun _ _ => True) t := fun x t => by
      rw [wp_bind]
      exact wp_trivial (fun _ _ e he => by cases he) fun _ _ => trivial
    cases hkind : efdAt env.toKernel s.disk.fs pair.1 with
    | none => exact absurd hkind hefd
    | file =>
      simp only
      rw [wp_bind]
      exact wp_trivial (fun r t => going _ t) fun _ _ => trivial
    | dir =>
      simp only
      rw [wp_bind]
      exact wp_trivial (fun r t => going _ t) fun _ _ => trivial

def InRunAmid (env : CopyEnv) (others : Disk → FileSystem) (s₀ s : CopyState) : Prop :=
  ∃ s₁, announce s₀ = .ok () s₁ ∧ Reached (copyRoundAmid env others) (fun _ => True) s₁ s

section Amid

variable {others : Disk → FileSystem}

theorem copyAllOf_tells_end
    (hthere : ∀ s, InRunAmid env others s₀ s → SourceThere env (s.amid others)) (n : Nat) :
    wp (copyAllOf (copyRoundAmid env others) n) (fun r t => ∀ e, r = some e →
      e = .finished ∧ ∃ cs, t.sock.out = cs ++ [.u64 EOFs_ind,.u8 RESPONSE_OK])
      (fun _ _ => True) s₀ := by
  unfold copyAllOf
  rw [wp_bind]
  refine wp_announce (fun k _ _ hann => ?_) fun _ _ => trivial
  have hstep : ∀ s, InRunAmid env others s₀ s → wp (copyRoundAmid env others)
      (fun r t => r.elim (InRunAmid env others s₀ t) fun e => e = .finished) (fun _ _ => True) s := by
    intro s hs
    refine wp_result ?_
    unfold copyRoundAmid
    rw [wp_bind,meddle,wp_onDisk,wp_modify]
    refine wp_mono (copyRound_ends (hthere s hs)) (fun r t hr hx => ?_) fun _ _ _ _ => trivial
    cases r with
    | some e => exact hr e rfl
    | none =>
      obtain ⟨s₁,hs₁,hreach⟩ := hs
      exact ⟨s₁,hs₁,hreach.round trivial hx⟩
  rw [wp_bind]
  refine wp_mono (wp_rounds hstep n ⟨_,hann,.start⟩) (fun r t hr => ?_) fun _ _ _ => trivial
  cases r with
  | none =>
    intro e he
    cases he
  | some ending =>
    obtain rfl : ending = .finished := hr
    simp only
    rw [wp_bind,wp_send_iff (by simp [Chunk.encode,littleEndian])]
    refine ⟨fun _ => ?_,fun _ => trivial⟩
    change wp (do
      send (.u8 RESPONSE_OK)
      pure (some Ending.finished)) _ _ _
    rw [wp_bind,wp_send_iff (by simp [Chunk.encode])]
    refine ⟨fun _ e he => ⟨(Option.some.inj he).symm,t.sock.out,?_⟩,fun _ => trivial⟩
    simp [Conn.sent]

/-- When every pair that is taken has a source, a run that returns has ended its stream: either the
end marker and one response are the last that was written, or the thread has exited; the descriptor
is closed in both cases. -/
theorem maincopy_ends_stream {n : Nat} {e : Ending} {t : CopyState}
    (hthere : ∀ s, InRunAmid env others s₀ s → SourceThere env (s.amid others))
    (hrun : maincopyOf (copyRoundAmid env others) n s₀ = .ok (some e) t) :
    t.sock.closed = true ∧ ((∃ cs, t.sock.out = cs ++ [.u64 EOFs_ind,.u8 RESPONSE_OK]) ∨
      ∃ u, copyAllOf (copyRoundAmid env others) n s₀ = .error .threadExit u) := by
  have hends : wp (maincopyOf (copyRoundAmid env others) n) (fun r t => ∀ e, r = some e →
      t.sock.closed = true ∧ ((∃ cs, t.sock.out = cs ++ [.u64 EOFs_ind,.u8 RESPONSE_OK]) ∨
        ∃ u, copyAllOf (copyRoundAmid env others) n s₀ = .error .threadExit u))
      (fun _ _ => True) s₀ := by
    unfold maincopyOf
    rw [wp_bind,wp_attempt]
    refine wp_result (wp_mono (copyAllOf_tells_end hthere n) (fun r t hr _ => ?_) fun e t _ hx => ?_)
    · cases r with
      | none =>
        intro e he
        cases he
      | some ending =>
        obtain ⟨rfl,hout⟩ := hr ending rfl
        rw [wp_bind,wp_onSock]
        exact fun _ _ => ⟨rfl,.inl hout⟩
    · cases e with
      | crash => trivial
      | diverged => trivial
      | threadExit =>
        rw [wp_pure,wp_bind,wp_onSock]
        exact fun _ _ => ⟨rfl,.inr ⟨t,hx⟩⟩
  rw [wp_of_ok hrun] at hends
  exact hends e rfl

end Amid

/-- `/a` onto `/b`, both fine. -/
def copyAlone : CopyState :=
  .start oneFile [] [(text ['/','a'],text ['/','b'])] (fun _ => ⟨0,0,0⟩) ⟨1,0,1⟩

theorem maincopy_ends_stream_alone :
    ∃ t, maincopyOf (copyRoundAmid (.calm 0) Disk.fs) 2 copyAlone = .ok (some .finished) t ∧
      t.sock.closed = true := by
  have hend : endsWithin (copyRound (.calm 0)) 2 (final announce copyAlone) := by decide +kernel
  have hthere : ∀ s ∈ begun (copyRound (.calm 0)) 2 (final announce copyAlone),
      ∀ pair ∈ s.S.head?, efdAt (CopyEnv.calm 0).toKernel s.disk.fs pair.1 ≠ .none := by
    decide +kernel
  obtain ⟨r,t,hrun,rfl⟩ := ok_of_wp (x := maincopyOf (copyRoundAmid (.calm 0) Disk.fs) 2)
    (Q := fun r _ => r = some .finished) (s := copyAlone) (by decide +kernel)
  refine ⟨t,hrun,(maincopy_ends_stream (fun s hs => ?_) hrun).1⟩
  rw [InRunAmid,copyRoundAmid_alone] at hs
  exact hthere s (InRun.mem_begun hs hend)

/-- Someone takes `/a` away before it is looked at: the client is left with an open connection and
is told nothing more. -/
theorem maincopy_leaves_stream :
    wp (maincopyOf (copyRoundAmid (.calm 0) fun _ => .ofEntries [([],.dir 0o755)] (by decide)) 2)
      (fun r t => r = some .sourceGone ∧ t.sock.closed = false ∧ t.sock.out = [.u64 1,.u64 1])
      (fun _ _ => False) copyAlone := by
  decide +kernel

end RootHelper
