import RootHelper.CopyRun

/-!
What keeps a source tree safe from the run that copies it. The task never looks for overlaps
between sources and destinations: an answer to a conflict is carried out wherever its destination
is. Short of such an answer nothing that stood in a source tree is touched.
-/

set_option autoImplicit false

namespace RootHelper
open Posix Control

/-- `r` stood in one of the source trees of `s₀`. -/
def InSource (env : CopyEnv) (s₀ : CopyState) (r : Path) : Prop :=
  s₀.disk.fs.has r ∧ ∃ pair ∈ s₀.S, ∃ l, env.glance s₀.disk.fs pair.1 = .ok l ∧ l <+: r

def Decision.actsOnDest : Decision → Bool
  | CD_OVERWRITE | CD_OVERWRITE_ALL | CD_REN_DEST | CD_REN_DEST_ALL => true
  | _ => false

/-- The decision to be carried out in `s` acts on a place that has none of `guarded` at or below
it, and a name the client gives does not lead to such a place either. -/
structure Spares (env : CopyEnv) (guarded : Path → Prop) (s : CopyState) : Prop where
  dest : ∀ pair rest dec l, s.S = pair :: rest → decisionAt env s = some dec → dec.actsOnDest →
    env.glance s.disk.fs pair.2 = .ok l → ∀ r, guarded r → ¬ l <+: r
  name : ∀ pair rest newname p c, s.S = pair :: rest → decisionAt env s = some .CD_REN_DEST →
    newNameAt s = some newname →
    env.spot s.disk.fs (renamedPath pair.2 newname) = .ok (.name p c) →
    ∀ r, guarded r → ¬ p ++ [c] <+: r

/-- Nothing that stood in a source tree was touched on the way to `t`, and all of it is as it
was. -/
structure SourcesSpared (env : CopyEnv) (s₀ t : CopyState) : Prop where
  untouched : ∃ es, t.disk.log = s₀.disk.log ++ es ∧ ∀ e ∈ es, ∀ r, InSource env s₀ r → ¬ e.touches r
  same : ∀ r, InSource env s₀ r → t.disk.fs.node r = s₀.disk.fs.node r

/-- Changes that touch none of `guarded`. -/
def AwayFrom (guarded : Path → Prop) : FileSystem → Change → Prop :=
  fun _ c => ∀ r, guarded r → ¬ c.touches r

variable {env : CopyEnv} {s₀ s t : CopyState}

theorem node_of_awayFrom {guarded : Path → Prop} {d d' : Disk}
    (h : Grown (Changes (AwayFrom guarded)) d d') :
    (∃ es, d'.log = d.log ++ es ∧ ∀ e ∈ es, ∀ r, guarded r → ¬ e.touches r) ∧
      ∀ r, guarded r → d'.fs.node r = d.fs.node r := by
  obtain ⟨es,hlog,hist⟩ := h
  have haway : ∀ e ∈ es, ∀ r, guarded r → ¬ e.touches r := by
    refine hist.all fun f e he r hr ht => ?_
    obtain ⟨c,hc,ht⟩ := ht
    exact he c hc r hr ht
  exact ⟨⟨es,hlog,haway⟩,fun r hr => hist.node_eq fun e he => haway e he r hr⟩

theorem awayFrom_of_roundChange {guarded : Path → Prop} (hexist : ∀ r, guarded r → s.disk.fs.has r)
    (hspare : Spares env guarded s) {f : FileSystem} {c : Change} (h : RoundChange env s f c) :
    AwayFrom guarded f c := by
  intro r hr ht
  cases h with
  | makes _ hfree =>
    obtain rfl : r = _ := ht
    exact hfree (hexist _ hr)
  | deletes hS hdec hl hpre =>
    obtain rfl : r = _ := ht
    rcases hdec with hdec | hdec
    · exact hspare.dest _ _ _ _ hS hdec rfl hl _ hr hpre
    · exact hspare.dest _ _ _ _ hS hdec rfl hl _ hr hpre
  | renames hS hdec hname hren =>
    rcases ht with ht | ht
    · exact hspare.dest _ _ _ _ hS hdec rfl hren.from_ _ hr ht
    · exact hspare.name _ _ _ _ _ hS hdec hname hren.to_ _ hr ht
  | renamesFree hS hdec hren hfree =>
    rcases ht with ht | ht
    · exact hspare.dest _ _ _ _ hS hdec rfl hren.from_ _ hr ht
    · exact hfree (FileSystem.has_of_above (hexist _ hr) ht)

theorem maincopy_spares_sources
    (h : ∀ s, InRun env s₀ s → Spares env (InSource env s₀) s) (n : Nat) :
    SourcesSpared env s₀ (final (maincopy env n) s₀) := by
  have hgrow : Leaves (GrownBy (AwayFrom (InSource env s₀)) s₀) (maincopy env n) s₀ := by
    refine leaves_maincopy (fun _ _ => grownBy_of_disk_eq) (fun s hrun hg => ?_) n
    have hexist : ∀ r, InSource env s₀ r → s.disk.fs.has r := by
      intro r hr
      have hsame := (node_of_awayFrom hg).2 r hr
      simpa only [FileSystem.has,hsame] using hr.1
    have haway : ∀ t, GrownBy (RoundChange env s) s t →
        GrownBy (AwayFrom (InSource env s₀)) s t := fun t ht =>
      ht.mono fun f c hc => awayFrom_of_roundChange hexist (h s hrun) hc
    exact wp_mono (copyRound_since s) (fun _ t => haway t) fun _ t => haway t
  have hend : GrownBy (AwayFrom (InSource env s₀)) s₀ (final (maincopy env n) s₀) :=
    leaves_iff.mp hgrow
  obtain ⟨huntouched,hsame⟩ := node_of_awayFrom hend
  exact ⟨huntouched,hsame⟩

/-- `/a` onto `/a`; the client answers with an overwrite. -/
def copyOntoItself : CopyState :=
  .start oneFile [0x01] [(text ['/','a'],text ['/','a'])] (fun _ => ⟨0,0,0⟩) ⟨1,0,1⟩

theorem maincopy_deletes_source :
    ¬ SourcesSpared (.calm 0) copyOntoItself (final (maincopy (.calm 0) 2) copyOntoItself) := by
  intro h
  have hhas : copyOntoItself.disk.fs.has [text ['a']] := by decide +kernel
  have hpair : (text ['/','a'],text ['/','a']) ∈ copyOntoItself.S := by decide +kernel
  have hplace : (CopyEnv.calm 0).glance copyOntoItself.disk.fs (text ['/','a']) =
      .ok [text ['a']] := by decide +kernel
  have hgone : (final (maincopy (.calm 0) 2) copyOntoItself).disk.fs.node [text ['a']] = none := by
    decide +kernel
  have hsame := h.same _ ⟨hhas,_,hpair,_,hplace,List.prefix_rfl⟩
  rw [hgone] at hsame
  rw [FileSystem.has,← hsame] at hhas
  simp at hhas

/-- Something stands at the destination, and is deleted for it. -/
theorem maincopy_spares_sources_over :
    SourcesSpared (.calm 0) copyOver (final (maincopy (.calm 0) 3) copyOver) := by
  have hsource : ∀ r, InSource (.calm 0) copyOver r → ¬ [text ['b']] <+: r := by
    rintro r ⟨-,pair,hpair,l,hl,hsource⟩ hdest
    obtain rfl := List.mem_singleton.mp hpair
    have hplace : (CopyEnv.calm 0).glance copyOver.disk.fs (text ['/','a']) = .ok [text ['a']] := by
      decide +kernel
    obtain rfl := Except.ok.inj (hplace.symm.trans hl)
    have hsame := List.IsPrefix.eq_of_length (List.prefix_of_prefix_length_le hsource hdest (by simp)) (by simp)
    revert hsame
    decide +kernel
  have hend : endsWithin (copyRound (.calm 0)) 3 (final announce copyOver) := by decide +kernel
  have hrun : ∀ s ∈ begun (copyRound (.calm 0)) 3 (final announce copyOver),
      decisionAt (.calm 0) s = none ∨ decisionAt (.calm 0) s = some .CD_OVERWRITE ∧
        ∀ pair ∈ s.S.head?, (CopyEnv.calm 0).glance s.disk.fs pair.2 = .ok [text ['b']] := by
    decide +kernel
  refine maincopy_spares_sources (fun s hs => ?_) 3
  rcases hrun s (hs.mem_begun hend) with hnone | ⟨hover,hplace⟩
  · constructor
    · intro pair rest dec l _ hdec
      simp [hnone] at hdec
    · intro pair rest newname p c _ hdec
      simp [hnone] at hdec
  · constructor
    · intro pair rest dec l hS _ _ hl r hr
      obtain rfl := Except.ok.inj ((hplace pair (by rw [hS]; rfl)).symm.trans hl)
      exact hsource r hr
    · intro pair rest newname p c _ hdec
      simp [hover] at hdec

end RootHelper
