import RootHelper.Utils

/-!
Deleting a tree takes away nothing outside the place its path named at the start, whatever calls
fail on the way and whatever links stand in the tree.
-/

set_option autoImplicit false

namespace RootHelper
open Posix Control

/-- The changes a deletion of `path`, begun in `f₀`, may make. -/
def Deletes (k : Kernel) (f₀ : FileSystem) (path : Str) : FileSystem → Change → Prop :=
  fun _ c => ∃ l q, k.glance f₀ path = .ok l ∧ c = .erase q ∧ l <+: q

/-- Where `x` leads in `f₀`, if anywhere, is at or below where `path` leads. -/
def Under (k : Kernel) (f₀ : FileSystem) (path x : Str) : Prop :=
  ∀ q, k.glance f₀ x = .ok q → ∃ l, k.glance f₀ path = .ok l ∧ l <+: q

variable {sys : System} {f₀ : FileSystem} {path x : Str} {d : Disk}

theorem erase_le (fs : FileSystem) (q : Path) : ((Change.erase q).apply fs).Le fs := by
  intro r n hr
  by_cases h : fs.CanErase q
  · rw [Change.node_erase h] at hr
    split_ifs at hr
    exact hr
  · simpa [Change.apply,h] using hr

theorem wp_remove_under {E : Stop → Disk → Prop} (hle : d.fs.Le f₀)
    (hx : Under sys.toKernel f₀ path x) :
    wp (sys.remove x)
      (fun _ d' => Grown (Changes (Deletes sys.toKernel f₀ path)) d d' ∧ d'.fs.Le f₀) E d := by
  refine System.wp_perform (fun e => ?_) (fun u ch hk => ?_)
  · exact ⟨grown_failed fun _ hc => by simp at hc,hle⟩
  · obtain ⟨q,hq,rfl,_,_⟩ := Kernel.glance_of_removeEffect hk
    obtain ⟨l,hl,hpre⟩ := hx q (Kernel.glance_le hle hq)
    refine ⟨grown_done ?_,(erase_le d.fs q).trans hle⟩
    intro c hc
    obtain rfl : Change.erase q = c := by simpa using hc
    exact ⟨l,q,hl,rfl,hpre⟩

theorem under_child {k : Kernel} {fs : FileSystem} {p : Path} {c : Name} (hle : fs.Le f₀)
    (hx : Under k f₀ path x) (hdir : efdAt k fs x = .dir) (hp : k.follow fs x = .ok p)
    (hc : c ∈ fs.children p) : Under k f₀ path (x ++ slash :: c) := by
  obtain ⟨p',m,hglance,hnode,hfollow⟩ := efdAt_dir hdir
  obtain rfl : p' = p := by
    rw [hp] at hfollow
    exact (Except.ok.inj hfollow).symm
  have hglance₀ := Kernel.glance_le hle hglance
  obtain ⟨l,hl,hpre⟩ := hx p' hglance₀
  by_cases hnul : NulFree x
  · have hproper := FileSystem.proper_of_has (FileSystem.mem_children.mp hc)
    have hchild := Kernel.glance_child hnul hproper (.inr rfl) (Kernel.follow_le hle hp)
      (hle _ _ hnode)
    intro q hq
    rw [hchild] at hq
    split_ifs at hq
    · obtain rfl := Except.ok.inj hq
      exact ⟨l,hl,hpre.trans (List.prefix_append _ _)⟩
  · -- what follows a NUL is not seen: the entry's path names the directory again
    have hsame : k.glance f₀ (x ++ slash :: c) = k.glance f₀ x := by
      simp only [Kernel.glance,Kernel.follow,Kernel.spot,cstr_append_of_nul hnul]
    intro q hq
    exact hx q (hsame ▸ hq)

theorem deleteLoop_deletes {n : Nat} {S : List (Str × Bool)} {ret : Int} (hle : d.fs.Le f₀)
    (hS : ∀ e ∈ S, Under sys.toKernel f₀ path e.1) :
    Leaves (Grown (Changes (Deletes sys.toKernel f₀ path)) d) (deleteLoop sys n S ret) d := by
  induction n generalizing S ret d with
  | zero => exact refl_of (Grown _) d
  | succ n ih =>
    cases S with
    | nil => exact refl_of (Grown _) d
    | cons e S =>
      obtain ⟨x,visited⟩ := e
      have hx : Under sys.toKernel f₀ path x := hS (x,visited) (by simp)
      have hrest : ∀ e ∈ S, Under sys.toKernel f₀ path e.1 := fun e he => hS e (by simp [he])
      have next : ∀ {d₁ : Disk} {S' : List (Str × Bool)} {ret' : Int},
          Grown (Changes (Deletes sys.toKernel f₀ path)) d d₁ → d₁.fs.Le f₀ →
          (∀ e ∈ S', Under sys.toKernel f₀ path e.1) →
          Leaves (Grown (Changes (Deletes sys.toKernel f₀ path)) d) (deleteLoop sys n S' ret') d₁ :=
        fun hg hl hS' => Leaves.since hg (ih hl hS')
      have removed : ∀ {d₁ : Disk}, Quiet d d₁ → wp (sys.remove x : DiskM _)
          (fun _ d₂ => ∀ ret', Leaves (Grown (Changes (Deletes sys.toKernel f₀ path)) d)
            (deleteLoop sys n S ret') d₂)
          (fun _ d₂ => Grown (Changes (Deletes sys.toKernel f₀ path)) d d₂) d₁ := by
        intro d₁ hq
        have hle₁ : d₁.fs.Le f₀ := hq.fs_eq ▸ hle
        refine wp_mono (wp_remove_under hle₁ hx) (fun _ d₂ h _ => ?_) (fun _ _ h => h)
        exact next (trans_of (Grown _) hq.grown h.1) h.2 hrest
      unfold deleteLoop
      rw [Leaves,wp_bind]
      refine wp_existsIsFileIsDir_ fun d₁ hq₁ => ?_
      cases hefd : efdAt sys.toKernel d.fs x with
      | none => exact next hq₁.grown (hq₁.fs_eq ▸ hle) hrest
      | file =>
        simp only [wp_bind]
        refine wp_mono (removed hq₁) (fun r _ h => ?_) fun _ _ h => h
        cases r <;> exact h _
      | dir =>
        simp only [wp_bind]
        refine wp_isDirectoryEmpty sys fun r d₂ hq₂ => ?_
        have hq := trans_of Quiet hq₁ hq₂
        have hle₂ : d₂.fs.Le f₀ := hq.fs_eq ▸ hle
        rw [wp_ite]
        refine ⟨fun _ => ?_,fun _ => ?_⟩
        · rw [wp_bind]
          refine wp_mono (removed hq) (fun r _ h => ?_) fun _ _ h => h
          cases r <;> exact h _
        rw [wp_ite]
        refine ⟨fun _ => next hq.grown hle₂ hrest,fun _ => ?_⟩
        rw [wp_bind]
        refine System.wp_opendir (fun _ d₃ hq₃ _ => (trans_of Quiet hq hq₃).grown) ?_
        intro p names d₃ hq₃ _ hp hpd hperm
        have hq' := trans_of Quiet hq hq₃
        refine next hq'.grown (hq'.fs_eq ▸ hle) ?_
        intro e he
        simp only [List.mem_append,List.mem_reverse,List.mem_map,List.mem_cons] at he
        rcases he with ⟨c,hc,rfl⟩ | rfl | he
        · rw [hq.fs_eq] at hp hperm
          exact under_child hle hx hefd hp (hperm.mem_iff.mp hc)
        · exact hx
        · exact hrest e he

theorem genericDeleteBasicImpl_deletes :
    Leaves (Grown (Changes (Deletes sys.toKernel d.fs path)) d)
      (genericDeleteBasicImpl sys path) d := by
  unfold genericDeleteBasicImpl
  rw [Leaves,wp_bind,wp_get]
  refine deleteLoop_deletes (FileSystem.Le.refl _) ?_
  intro e he q hq
  obtain rfl : e = (path,false) := by simpa using he
  exact ⟨q,hq,List.prefix_rfl⟩

end RootHelper
