import RootHelper.Posix.Ways
import RootHelper.Transfer

/-!
Making the directories above what comes in: on a way where there are only directories, those that
are missing are made, and nothing else changes.
-/

set_option autoImplicit false

namespace RootHelper
open Posix Control

variable {sys : System} {cs : List Name} {b rel : Path}

theorem split_at_lastSlash {a : Str} (habs : absolute a) :
    ∃ x c, a = x ++ slash :: c ∧ slash ∉ c ∧ (x ≠ [] → absolute x) ∧
      components a = components x ++ if c = [] then [] else [c] := by
  have hmem : slash ∈ a := List.mem_of_mem_head? habs
  cases hl : lastSlash a with
  | none => exact absurd hmem (lastSlash_eq_none.mp hl)
  | some i =>
    obtain ⟨x,c,rfl,_,hc⟩ := lastSlash_eq_some hl
    refine ⟨x,c,rfl,hc,fun hx => ?_,?_⟩
    · unfold absolute at habs ⊢
      rwa [List.head?_append_of_ne_nil _ hx] at habs
    · rw [components_append_slash]
      by_cases hnil : c = []
      · simp [hnil]
      · rw [if_neg hnil,components_of_no_slash hc hnil]

theorem makeEffect_on_way {fs : FileSystem} (hperm : ∀ p c m, sys.permits p c m = true)
    (hway : Way sys.toKernel fs cs b rel) {a x c : Str} (hax : a = x ++ slash :: c)
    (hc : slash ∉ c) (habs : absolute a) (hnul : NulFree a)
    (hcomp : components a = components x ++ if c = [] then [] else [c])
    (hpre : components a <+: cs ++ rel)
    (hparent : ∀ t, components x = cs ++ t → fs.isDir (b ++ t)) (m : Nat) :
    sys.makeEffect a (.dir m) fs = .error .EEXIST ∧
        (∀ t, components a = cs ++ t → fs.isDir (b ++ t)) ∨
      ∃ t, components a = cs ++ t ++ [c] ∧ ProperName c ∧ fs.isDir (b ++ t) ∧
        ¬ fs.has (b ++ t ++ [c]) ∧
        sys.makeEffect a (.dir m) fs = .ok ((b ++ t,c),some (.put (b ++ t) c (.dir m))) := by
  have hne := Way.ne_nil habs
  have taken : ∀ q, sys.walk fs Kernel.maxLinks [] (components a) = .ok q →
      sys.makeEffect a (.dir m) fs = .error .EEXIST := by
    intro q hq
    refine Kernel.makeEffect_taken (by rwa [cstr_of_nulFree hnul]) ?_ (q := q) ?_
    · rw [cstr_of_nulFree hnul,Way.start habs]
      exact fs.has_root
    · rw [cstr_of_nulFree hnul,Way.start habs]
      exact hq
  rcases List.prefix_or_prefix_of_prefix hpre (List.prefix_append cs rel) with hin | hout
  · -- on the way to `b`
    obtain ⟨more,hmore⟩ := hin
    have hbase := hway.base
    rw [← hmore] at hbase
    obtain ⟨q,_,hq,_⟩ := Kernel.walk_append hbase
    refine .inl ⟨taken q hq,fun t ht => ?_⟩
    rw [ht,List.append_assoc] at hmore
    obtain rfl : t = [] := (List.append_eq_nil_iff.mp (List.self_eq_append_right.mp hmore.symm)).1
    rw [List.append_nil]
    exact hway.isDir
  · obtain ⟨t,ht⟩ := hout
    rw [← ht] at hpre
    have hrel := (List.prefix_append_right_inj cs).mp hpre
    by_cases hhas : fs.has (b ++ t)
    · have hwalk := (hway.of_prefix hrel).walk hperm hhas
      rw [ht] at hwalk
      refine .inl ⟨taken _ hwalk,fun t' ht' => ?_⟩
      obtain rfl := List.append_cancel_left (ht.trans ht')
      exact hway.dirs _ hrel hhas
    · -- the parent is there, so it is the last name that is missing
      have hcne : c ≠ [] := by
        intro hnil
        rw [if_pos hnil,List.append_nil,← ht] at hcomp
        exact hhas (FileSystem.has_of_isDir (hparent t hcomp.symm))
      rw [if_neg hcne,← ht] at hcomp
      have htne : t ≠ [] := by
        intro hnil
        rw [hnil,List.append_nil] at hhas
        exact hhas (FileSystem.has_of_isDir hway.isDir)
      obtain ⟨t₀,d,rfl⟩ := (List.eq_nil_or_concat' t).resolve_left htne
      rw [← List.append_assoc] at hcomp hhas ht
      obtain ⟨hx,hd⟩ := List.append_inj' hcomp rfl
      obtain rfl : d = c := by simpa using hd
      have hdir := hparent t₀ hx.symm
      have hproper := hway.proper d (hrel.subset (by simp))
      have hway₀ := hway.of_prefix ((List.prefix_append t₀ [d]).trans hrel)
      have hspot := hway₀.spot hperm habs hnul ht.symm hproper (FileSystem.has_of_isDir hdir)
      have hend : ¬ endsWithSlash (cstr a) := by
        rw [cstr_of_nulFree hnul,hax,endsWithSlash,List.getLast?_append_of_ne_nil _ (by simp),
          List.getLast?_cons_of_ne_nil hcne]
        exact fun hlast => hc (List.mem_of_getLast? hlast)
      exact .inr ⟨t₀,ht.symm,hproper,hdir,hhas,Kernel.makeEffect_free hspot hhas hend⟩

section Making

variable {mode : Nat} {d : Disk} {E : Stop → Disk → Prop} {Q : Int → Disk → Prop}

/-- Up to each slash of a path along a way directories are made of what is missing. -/
theorem wp_mkpathAlong_makes (hgrant : ∀ t, sys.refuse t = none)
    (hperm : ∀ p c m, sys.permits p c m = true) {a : Str} {l : List Str} (habs : absolute a)
    (hnul : NulFree a) (hway : Way sys.toKernel d.fs cs b rel) (hpre : components a <+: cs ++ rel)
    (h : ∀ d', Extends d.fs d'.fs (b ++ rel) → (∀ t, components a = cs ++ t → d'.fs.isDir (b ++ t)) →
      wp (mkpathAlong sys mode true l) Q E d') :
    wp (mkpathAlong sys mode true (partialPaths (a ++ [slash]) ++ l)) Q E d := by
  generalize hlen : a.length = n
  induction n using Nat.strongRecOn generalizing a l with
  | ind n ih =>
    obtain ⟨x,c,hax,hc,hxabs,hcomp⟩ := split_at_lastSlash habs
    have hpaths : partialPaths (a ++ [slash]) =
        (if x = [] then [] else partialPaths (x ++ [slash])) ++ [a] := by
      have hslash : a = x ++ [slash] ++ c := by simp [hax]
      rw [partialPaths_append_slash (Way.ne_nil habs)]
      congr 1
      rw [hslash,partialPaths_append hc]
      by_cases hx : x = []
      · rw [if_pos hx,hx]
        rfl
      · rw [if_neg hx]
    -- then `a` itself
    have hlast : ∀ d₁, Extends d.fs d₁.fs (b ++ rel) →
        (∀ t, components x = cs ++ t → d₁.fs.isDir (b ++ t)) →
        wp (mkpathAlong sys mode true (a :: l)) Q E d₁ := by
      intro d₁ hext hparent
      have hway₁ := hext.way hway
      rw [mkpathAlong,wp_bind,System.mkdir,System.wp_perform_granted (hgrant _)]
      rcases makeEffect_on_way hperm hway₁ hax hc habs hnul hcomp hpre hparent (sys.masked mode)
        with ⟨heffect,hdir⟩ | ⟨t,ht,hproper,hdir,hfree,heffect⟩
      · rw [heffect]
        simp only [System.settled]
        rw [if_neg (by simp)]
        exact h _ hext hdir
      · rw [heffect]
        simp only [System.settled]
        have hrel : t ++ [c] <+: rel := by
          rw [ht,List.append_assoc] at hpre
          exact (List.prefix_append_right_inj cs).mp hpre
        have hput := Extends.put (m := sys.masked mode) ⟨hdir,hproper⟩ hfree (q := b ++ rel) (by
          rw [List.append_assoc]
          exact (List.prefix_append_right_inj b).mpr hrel)
        refine h _ (hext.trans hput) fun t' ht' => ?_
        rw [ht,List.append_assoc] at ht'
        rw [← List.append_cancel_left ht',← List.append_assoc]
        refine FileSystem.isDir_iff.mpr ⟨sys.masked mode,?_⟩
        exact (Change.node_put (FileSystem.canPut_free ⟨hdir,hproper⟩ hfree) _).trans (if_pos rfl)
    rw [hpaths,List.append_assoc,List.singleton_append]
    by_cases hx : x = []
    · rw [if_pos hx,List.nil_append]
      refine hlast d (Extends.refl _ _) fun t ht => ?_
      rw [hx,components_nil] at ht
      obtain rfl := (List.append_eq_nil_iff.mp ht.symm).2
      rw [List.append_nil]
      exact hway.isDir
    · rw [if_neg hx]
      have hlt : x.length < n := by
        rw [← hlen,hax,List.length_append,List.length_cons]
        omega
      have hxnul : NulFree x := fun hmem => hnul (by simp [hax,hmem])
      have hxpre : components x <+: cs ++ rel := by
        rw [hcomp] at hpre
        exact (List.prefix_append _ _).trans hpre
      exact ih _ hlt (hxabs hx) hxnul hxpre hlast rfl

theorem wp_mkpath_makes (hgrant : ∀ t, sys.refuse t = none)
    (hperm : ∀ p c m, sys.permits p c m = true) {a : Str} (habs : absolute a) (hnul : NulFree a)
    (hway : Way sys.toKernel d.fs cs b rel) (ha : components a = cs ++ rel)
    (hne : components a ≠ [])
    (hQ : ∀ d', Extends d.fs d'.fs (b ++ rel) → d'.fs.isDir (b ++ rel) → Q 0 d') :
    wp (mkpath sys a mode true) Q E d := by
  have hdot : ¬ (a = [dot] ∨ a = [slash]) := by
    intro h
    rcases h with rfl | rfl
    · simp [absolute,dot,slash] at habs
    · simp at hne
  have hhead : ¬ (a ++ [slash]).head? ≠ some slash := by
    rw [List.head?_append_of_ne_nil _ (Way.ne_nil habs)]
    exact not_not.mpr habs
  rw [mkpath,if_neg hdot,if_neg hhead,← List.append_nil (partialPaths _)]
  refine wp_mkpathAlong_makes hgrant hperm habs hnul hway (by rw [ha]) fun d' hext hdir => ?_
  exact hQ d' hext (hdir rel ha)

theorem wp_statNearestAncestor (hperm : ∀ p c m, sys.permits p c m = true)
    {Q : Option Node → Disk → Prop} {n : Nat} {a : Str} (habs : absolute a) (hnul : NulFree a)
    (hway : Way sys.toKernel d.fs cs b rel) (hcs : cs ≠ []) (ha : components a = cs ++ rel)
    (hn : a.length < n) (hQ : ∀ m d', Quiet d d' → Q (some m) d') :
    wp (statNearestAncestor sys n a) Q E d := by
  induction n generalizing a rel d with
  | zero => omega
  | succ n ih =>
    rw [statNearestAncestor,wp_bind]
    refine wp_look_quiet (fun _ _ hk => System.statEffect_quiet hk) fun d₁ h₁ => ?_
    cases hstat : (sys.statEffect a d.fs).map Prod.fst with
    | ok n => exact hQ _ d₁ h₁
    | error e =>
      -- only a path that goes on from `b` can have nothing at its end
      have hrel : rel ≠ [] := by
        rintro rfl
        have hb := FileSystem.has_of_isDir hway.isDir
        have hfollow := hway.follow hperm habs hnul ha (by rwa [List.append_nil])
        rw [List.append_nil] at hfollow
        obtain ⟨n,hn⟩ := FileSystem.has_iff.mp hb
        simp [Kernel.statEffect,hfollow,Kernel.nodeAt,hn,bind,Except.bind,Except.map] at hstat
      obtain ⟨x,c,hax,hc,hxabs,hcomp⟩ := split_at_lastSlash habs
      have hparent : getParentDir a = x := by rw [hax,getParentDir_append hc]
      obtain ⟨t,ht,hx⟩ : ∃ t, t <+: rel ∧ components x = cs ++ t := by
        by_cases hnil : c = []
        · rw [if_pos hnil,List.append_nil] at hcomp
          exact ⟨rel,List.prefix_rfl,hcomp.symm.trans ha⟩
        · obtain ⟨t,e,rfl⟩ := (List.eq_nil_or_concat' rel).resolve_left hrel
          rw [if_neg hnil,ha,← List.append_assoc] at hcomp
          exact ⟨t,List.prefix_append _ _,(List.append_inj' hcomp rfl).1.symm⟩
      have hxne : x ≠ [] := by
        rintro rfl
        simp [hcs] at hx
      have hxnul : NulFree x := fun hmem => hnul (by simp [hax,hmem])
      have hway₁ : Way sys.toKernel d₁.fs cs b t := by
        rw [h₁.fs_eq]
        exact hway.of_prefix ht
      have hlt : x.length < n := by
        rw [hax,List.length_append,List.length_cons] at hn
        omega
      simp only [hparent]
      rw [if_neg hxne]
      exact ih (hxabs hxne) hxnul hway₁ hx hlt fun m d' hd' => hQ m d' (trans_of Quiet h₁ hd')

theorem wp_mkpathCopyPermissions (hgrant : ∀ t, sys.refuse t = none)
    (hperm : ∀ p c m, sys.permits p c m = true) {a : Str} (habs : absolute a) (hnul : NulFree a)
    (hway : Way sys.toKernel d.fs cs b rel) (hcs : cs ≠ []) (ha : components a = cs ++ rel)
    (hQ : ∀ d', Extends d.fs d'.fs (b ++ rel) → d'.fs.isDir (b ++ rel) → Q 0 d') :
    wp (mkpathCopyPermissionsFromNearestAncestor sys a true) Q E d := by
  rw [mkpathCopyPermissionsFromNearestAncestor,wp_bind,osStat,wp_bind]
  refine wp_look_quiet (fun _ _ hk => System.lstatEffect_quiet hk) fun d₁ h₁ => ?_
  have hres : (sys.lstatEffect a d.fs).map Prod.fst =
      Kernel.nodeAt d.fs (sys.glance d.fs a) := by
    unfold Kernel.lstatEffect
    cases Kernel.nodeAt d.fs (sys.glance d.fs a) <;> rfl
  rw [hres]
  by_cases hhas : d.fs.has (b ++ rel)
  · -- it is there: a directory, or a link to one
    have hdir := hway.dirs rel List.prefix_rfl hhas
    have hwalk := hway.walk hperm hhas
    rw [← ha] at hwalk
    obtain ⟨r,n,hr,hn,hkind,hfollow⟩ := Way.glance_dir habs hnul hwalk hdir
    have hnode : Kernel.nodeAt d.fs (sys.glance d.fs a) = .ok n := by
      rw [hr]
      simp [Kernel.nodeAt,bind,Except.bind,hn]
    rw [hnode]
    have hquiet : ∀ d', Quiet d d' → Q 0 d' := fun d' hd' => by
      refine hQ d' ?_ ?_
      · rw [hd'.fs_eq]
        exact Extends.refl _ _
      · rwa [hd'.fs_eq]
    cases n with
    | file content m => simp [Node.isDir] at hkind
    | dir m =>
      simp only [wp_map,getPermissions,wp_pure]
      exact hquiet d₁ h₁
    | link t =>
      simp only [wp_map,getPermissions,wp_bind]
      refine wp_look_quiet (fun _ _ hk => System.statEffect_quiet hk) fun d₂ h₂ => ?_
      obtain ⟨m,hm⟩ := FileSystem.isDir_iff.mp hdir
      have hstat : (sys.statEffect a d₁.fs).map Prod.fst = .ok (.dir m) := by
        simp [Kernel.statEffect,h₁.fs_eq,hfollow,Kernel.nodeAt,hm,bind,Except.bind,Except.map]
      rw [hstat]
      exact hquiet d₂ (trans_of Quiet h₁ h₂)
  · have hrel : rel ≠ [] := by
      rintro rfl
      rw [List.append_nil] at hhas
      exact hhas (FileSystem.has_of_isDir hway.isDir)
    obtain ⟨t,c,rfl⟩ := (List.eq_nil_or_concat' rel).resolve_left hrel
    have hfree := hway.glance_free hperm habs hnul ha hhas
    have hnode : ∃ e, Kernel.nodeAt d.fs (sys.glance d.fs a) = .error e := by
      cases hn : Kernel.nodeAt d.fs (sys.glance d.fs a) with
      | error e => exact ⟨e,rfl⟩
      | ok n =>
        obtain ⟨r,hr,hnr⟩ := Kernel.nodeAt_ok hn
        exact absurd (FileSystem.has_iff.mpr ⟨n,hnr⟩) (hfree r hr)
    obtain ⟨e,he⟩ := hnode
    rw [he]
    have hway₁ : Way sys.toKernel d₁.fs cs b (t ++ [c]) := by rwa [h₁.fs_eq]
    simp only [wp_pure,wp_bind]
    refine wp_statNearestAncestor hperm habs hnul hway₁ hcs ha (Nat.lt_succ_self _)
      fun m d₂ h₂ => ?_
    have hfs : d₂.fs = d.fs := h₂.fs_eq.trans h₁.fs_eq
    refine wp_mkpath_makes hgrant hperm habs hnul (by rwa [hfs]) ha (by simp [ha,hcs])
      fun d' hext hdir => hQ d' ?_ hdir
    rwa [hfs] at hext

end Making

end RootHelper
