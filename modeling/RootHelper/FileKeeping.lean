import RootHelper.SourceSafety

/-!
What becomes of the regular files that were there before a copy. Without an overwrite each of them
is kept, where it was or where a rename took it, unless the client gives the destination of a
conflict the name of another file: that rename replaces the file without asking.
-/

set_option autoImplicit false

namespace RootHelper
open Posix Control

/-- Every regular file of `d` is in `d'`, at its old place or where the renames made on the way
took it. -/
def FilesKept (d d' : Disk) : Prop :=
  ∃ es, d'.log = d.log ++ es ∧ ∀ r content m, d.fs.node r = some (.file content m) →
    d'.fs.node (relocate es r) = some (.file content m)

instance : Std.Refl FilesKept := ⟨fun d => ⟨[],by simp,fun _ _ _ h => h⟩⟩

instance : IsTrans Disk FilesKept := by
  refine ⟨?_⟩
  intro a b c h h'
  obtain ⟨es,hlog,hkeep⟩ := h
  obtain ⟨es',hlog',hkeep'⟩ := h'
  refine ⟨es ++ es',by rw [hlog',hlog,List.append_assoc],fun r content m hr => ?_⟩
  rw [relocate,List.foldl_append]
  exact hkeep' _ _ _ (hkeep _ _ _ hr)

def NameNotTaken (env : CopyEnv) (s : CopyState) : Prop :=
  ∀ pair rest newname a p c, s.S = pair :: rest → decisionAt env s = some .CD_REN_DEST →
    newNameAt s = some newname → env.glance s.disk.fs pair.2 = .ok a → ¬ s.disk.fs.isDir a →
    env.spot s.disk.fs (renamedPath pair.2 newname) = .ok (.name p c) → p ++ [c] ≠ a →
    ∀ content m, s.disk.fs.node (p ++ [c]) ≠ some (.file content m)

def NoOverwrite (env : CopyEnv) (s : CopyState) : Prop :=
  decisionAt env s ≠ some .CD_OVERWRITE ∧ decisionAt env s ≠ some .CD_OVERWRITE_ALL

/-- A move made in `f₀`, onto no regular file. -/
def MovesIn (f₀ f : FileSystem) (ch : Change) : Prop :=
  f = f₀ ∧ ∃ a q c, ch = .move a q c ∧ f₀.CanMove a q c ∧
    ∀ content m, f₀.node (q ++ [c]) ≠ some (.file content m)

variable {env : CopyEnv} {s₀ s : CopyState} {f₀ f f' : FileSystem} {es : List Event}

theorem history_movesIn_after (h : History (Changes (MovesIn f₀)) f es f') (hf : f ≠ f₀) :
    f' = f ∧ ∀ r, relocate es r = r := by
  induction h with
  | nil => exact ⟨rfl,fun _ => rfl⟩
  | @cons f f' e es he _ ih =>
    have hno : e.change = none := by
      cases hc : e.change with
      | none => rfl
      | some c => exact absurd (he c hc).1 hf
    have happly : e.apply f = f := by simp [Event.apply,hno]
    rw [happly] at ih
    obtain ⟨hf',hr⟩ := ih hf
    refine ⟨hf',fun r => ?_⟩
    have hstay : e.relocate r = r := by simp [Event.relocate,hno]
    calc relocate (e :: es) r = relocate es (e.relocate r) := rfl
      _ = r := by rw [hstay,hr]

theorem files_kept_by_move (h : History (Changes (MovesIn f₀)) f es f') (hf : f = f₀) {r : Path}
    {content : Str} {m : Nat} (hr : f₀.node r = some (.file content m)) :
    f'.node (relocate es r) = some (.file content m) := by
  induction h with
  | nil => rw [hf]; exact hr
  | @cons f f' e es he hist ih =>
    change f'.node (relocate es (e.relocate r)) = _
    cases hc : e.change with
    | none =>
      have happly : e.apply f = f := by simp [Event.apply,hc]
      have hstay : e.relocate r = r := by simp [Event.relocate,hc]
      rw [hstay]
      exact ih (by rw [happly,hf])
    | some c =>
      obtain ⟨_,a,q,n,rfl,hcan,hfile⟩ := he c hc
      subst hf
      have happly : e.apply f = (Change.move a q n).apply f := by simp [Event.apply,hc]
      have hstay : e.relocate r = (Change.move a q n).relocate r := by simp [Event.relocate,hc]
      have haway : ¬ q ++ [n] <+: r := by
        intro hpre
        have hne : q ++ [n] ≠ r := fun e => hfile content m (e ▸ hr)
        have hhas : f.has r := FileSystem.has_iff.mpr ⟨_,hr⟩
        exact FileSystem.not_has_below_childless hcan.2.2.2.2.2 hpre hne hhas
      have hmoved := Change.node_relocate_move hcan haway
      have hother : e.apply f ≠ f := by
        intro heq
        -- what was moved is not where it was
        have hgone : ((Change.move a q n).apply f).node a = none := by
          have ht : ¬ q ++ [n] <+: a := fun hpre => by
            have hne : q ++ [n] ≠ a := by
              intro e
              exact hcan.2.2.2.2.1 (e ▸ List.prefix_rfl)
            exact FileSystem.not_has_below_childless hcan.2.2.2.2.2 hpre hne hcan.2.1
          rw [Change.node_move hcan,FileSystem.movedNode_away ht,if_pos List.prefix_rfl]
        rw [← happly,heq] at hgone
        have hhas := hcan.2.1
        simp [FileSystem.has,hgone] at hhas
      obtain ⟨hend,hrel⟩ := history_movesIn_after hist hother
      rw [hend,hrel,hstay,happly,hmoved,hr]

theorem copyRound_keeps_files (hno : NoOverwrite env s) (hname : NameNotTaken env s) {t : CopyState}
    (h : GrownBy (RoundChange env s) s t) : FilesKept s.disk t.disk := by
  obtain ⟨es,hlog,hist⟩ := h
  refine ⟨es,hlog,fun r content m hr => ?_⟩
  have hhas : s.disk.fs.has r := FileSystem.has_iff.mpr ⟨_,hr⟩
  by_cases hren : decisionAt env s = some .CD_REN_DEST ∨ decisionAt env s = some .CD_REN_DEST_ALL
  · have hmoves : History (Changes (MovesIn s.disk.fs)) s.disk.fs es t.disk.fs := by
      refine hist.mono fun f e he => he.mono fun c hc => ?_
      cases hc with
      | makes hnone => simp [hnone] at hren
      | deletes _ hdec =>
        rcases hdec with hdec | hdec
        · exact absurd hdec hno.1
        · exact absurd hdec hno.2
      | @renames pair rest newname a q c hS hdec hnew hrename =>
        refine ⟨rfl,_,_,_,rfl,hrename.can,fun content m hfile => ?_⟩
        have htarget : s.disk.fs.has (q ++ [c]) := FileSystem.has_iff.mpr ⟨_,hfile⟩
        have hnotdir : ¬ s.disk.fs.isDir a := by
          rw [hrename.kinds htarget]
          simp [FileSystem.isDir,hfile,Node.isDir]
        have hne : q ++ [c] ≠ a := fun e => hrename.can.2.2.2.2.1 (e ▸ List.prefix_rfl)
        exact hname _ _ _ _ _ _ hS hdec hnew hrename.from_ hnotdir hrename.to_ hne content m hfile
      | renamesFree _ _ hrename hfree =>
        refine ⟨rfl,_,_,_,rfl,hrename.can,fun content m hfile => hfree ?_⟩
        exact FileSystem.has_iff.mpr ⟨_,hfile⟩
    exact files_kept_by_move hmoves rfl hr
  · -- without a rename what is made is made elsewhere
    have haway : ∀ e ∈ es, ¬ e.touches r := by
      refine hist.all fun f e he ht => ?_
      obtain ⟨c,hc,ht⟩ := ht
      cases he c hc with
      | makes _ hfree =>
        obtain rfl : r = _ := ht
        exact hfree hhas
      | deletes _ hdec =>
        rcases hdec with hdec | hdec
        · exact hno.1 hdec
        · exact hno.2 hdec
      | renames _ hdec => exact hren (.inl hdec)
      | renamesFree _ hdec => exact hren (.inr hdec)
    rw [relocate_untouched haway,hist.node_eq haway]
    exact hr

def threeFiles : FileSystem :=
  .ofEntries [([],.dir 0o755),([text ['a']],.file (text ['x']) 0o644),
    ([text ['b']],.file (text ['y']) 0o644),([text ['c']],.file (text ['z']) 0o644)] (by decide)

/-- `/a` onto `/b`; the client answers that the destination shall be renamed to `newname`. -/
def renameDestTo (newname : Str) : CopyState :=
  .start threeFiles ([0x03,UInt8.ofNat newname.length,0] ++ newname)
    [(text ['/','a'],text ['/','b'])] (fun _ => ⟨0,0,0⟩) ⟨1,0,1⟩

end RootHelper
