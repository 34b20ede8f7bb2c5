import RootHelper.Posix.History

/-!
Ways on from a directory on which there are directories as far as there is anything: where a path
along one leads, and what can be made at its end.
-/

set_option autoImplicit false

namespace Posix

/-- From the root `cs` leads to the directory `b`, and as far as anything is on the way `rel` from
there, it is a directory. -/
structure Way (k : Kernel) (fs : FileSystem) (cs : List Name) (b rel : Path) : Prop where
  base : k.walk fs Kernel.maxLinks [] cs = .ok b
  isDir : fs.isDir b
  proper : ∀ c ∈ rel, ProperName c
  dirs : ∀ t, t <+: rel → fs.has (b ++ t) → fs.isDir (b ++ t)

namespace Way

variable {k : Kernel} {fs fs' : FileSystem} {cs : List Name} {b rel q : Path}

theorem of_prefix {t : Path} (h : Way k fs cs b rel) (ht : t <+: rel) : Way k fs cs b t :=
  ⟨h.base,h.isDir,fun c hc => h.proper c (ht.subset hc),fun u hu => h.dirs u (hu.trans ht)⟩

theorem along (hperm : ∀ p c m, k.permits p c m = true)
    {again : Path → List Name → Except Errno Path} (hb : fs.isDir b)
    (hproper : ∀ c ∈ rel, ProperName c)
    (hdirs : ∀ t, t <+: rel → fs.has (b ++ t) → fs.isDir (b ++ t)) :
    (fs.has (b ++ rel) → k.along fs again b rel = .ok (b ++ rel)) ∧
      ∀ q, k.along fs again b rel = .ok q → q = b ++ rel ∧ fs.has (b ++ rel) := by
  induction rel generalizing b with
  | nil =>
    rw [List.append_nil]
    refine ⟨fun _ => rfl,fun q hq => ?_⟩
    exact ⟨(Except.ok.inj hq).symm,FileSystem.has_of_isDir hb⟩
  | cons c rel ih =>
    obtain ⟨m,hm⟩ := FileSystem.isDir_iff.mp hb
    obtain ⟨hne,_,_,hdot,hdotdot⟩ := hproper c List.mem_cons_self
    have happend : b ++ c :: rel = b ++ [c] ++ rel := by simp
    unfold Kernel.along
    simp only [hm,if_neg hne,hperm b c m,Bool.true_eq_false,if_false,if_neg hdot,if_neg hdotdot]
    by_cases hc : fs.has (b ++ [c])
    · have hdir := hdirs [c] ⟨rel,rfl⟩ hc
      obtain ⟨m',hm'⟩ := FileSystem.isDir_iff.mp hdir
      have hrest := ih hdir (fun d hd => hproper d (List.mem_cons_of_mem _ hd)) fun t ht hhas => by
        rw [List.append_assoc,List.singleton_append] at hhas ⊢
        exact hdirs (c :: t) (List.cons_prefix_cons.mpr ⟨rfl,ht⟩) hhas
      simp only [hm']
      rw [happend]
      exact hrest
    · have hnone := FileSystem.node_of_not_has hc
      have hno : ¬ fs.has (b ++ c :: rel) := by
        rw [happend]
        exact FileSystem.not_has_below hc (List.prefix_append _ _)
      simp only [hnone]
      exact ⟨fun h => absurd h hno,fun q hq => by simp at hq⟩

theorem walk (hperm : ∀ p c m, k.permits p c m = true) (h : Way k fs cs b rel)
    (hhas : fs.has (b ++ rel)) : k.walk fs Kernel.maxLinks [] (cs ++ rel) = .ok (b ++ rel) := by
  induction rel using List.reverseRecOn with
  | nil =>
    rw [List.append_nil,List.append_nil]
    exact h.base
  | append_singleton t c ih =>
    have ht : t <+: t ++ [c] := List.prefix_append _ _
    have habove : fs.has (b ++ t) :=
      FileSystem.has_of_above hhas ((List.prefix_append_right_inj b).mpr ht)
    have hstep := ih (h.of_prefix ht) habove
    obtain ⟨m,hm⟩ := FileSystem.isDir_iff.mp (h.dirs t ht habove)
    obtain ⟨m',hm'⟩ := FileSystem.isDir_iff.mp (h.dirs _ List.prefix_rfl hhas)
    rw [← List.append_assoc] at hm'
    rw [← List.append_assoc,← List.append_assoc]
    exact Kernel.walk_snoc hstep fun again =>
      Kernel.along_name hm (h.proper c (by simp)) (hperm _ _ _) hm' (by simp)

theorem walk_only (hperm : ∀ p c m, k.permits p c m = true) (h : Way k fs cs b rel)
    (hwalk : k.walk fs Kernel.maxLinks [] (cs ++ rel) = .ok q) : q = b ++ rel ∧ fs.has q := by
  obtain ⟨r,n,hr,hn⟩ := Kernel.walk_append hwalk
  obtain rfl := Except.ok.inj (h.base.symm.trans hr)
  have hplain := fun again => (@along k fs b rel hperm again h.isDir h.proper h.dirs).2 q
  have hq : q = b ++ rel ∧ fs.has (b ++ rel) := by
    cases n with
    | zero => exact hplain _ hn
    | succ n => exact hplain _ hn
  exact ⟨hq.1,hq.1 ▸ hq.2⟩

section Path

variable {s : Str} {c : Name}

theorem start (habs : absolute s) : k.start s = [] := if_pos habs

theorem ne_nil (habs : absolute s) : s ≠ [] := by
  rintro rfl
  simp [absolute] at habs

theorem follow (hperm : ∀ p c m, k.permits p c m = true) (h : Way k fs cs b rel)
    (habs : absolute s) (hnul : NulFree s) (hs : components s = cs ++ rel)
    (hhas : fs.has (b ++ rel)) : k.follow fs s = .ok (b ++ rel) := by
  rw [Kernel.follow,cstr_of_nulFree hnul,if_neg (ne_nil habs),start habs,names,hs]
  split
  · exact Kernel.walk_snoc (h.walk hperm hhas) fun again =>
      Kernel.along_nil_name (h.dirs rel List.prefix_rfl hhas)
  · rw [List.append_nil]
    exact h.walk hperm hhas

theorem spot (hperm : ∀ p c m, k.permits p c m = true) (h : Way k fs cs b rel)
    (habs : absolute s) (hnul : NulFree s) (hs : components s = cs ++ rel ++ [c])
    (hc : ProperName c) (hhas : fs.has (b ++ rel)) : k.spot fs s = .ok (.name (b ++ rel) c) := by
  obtain ⟨m,hm⟩ := FileSystem.isDir_iff.mp (h.dirs rel List.prefix_rfl hhas)
  rw [Kernel.spot,cstr_of_nulFree hnul,if_neg (ne_nil habs),start habs,Kernel.spotFrom,hs]
  simp only [List.getLast?_append,List.getLast?_singleton,Option.some_or,List.dropLast_concat]
  rw [h.walk hperm hhas]
  simp only [bind,Except.bind,hm,hperm,Bool.true_eq_false,if_false,if_neg hc.2.2.2.1,
    if_neg hc.2.2.2.2]

/-- Where there is nothing at its end, a look at it finds nothing. -/
theorem glance_free (hperm : ∀ p c m, k.permits p c m = true) (h : Way k fs cs b (rel ++ [c]))
    (habs : absolute s) (hnul : NulFree s) (hs : components s = cs ++ (rel ++ [c]))
    (hfree : ¬ fs.has (b ++ (rel ++ [c]))) : ∀ r, k.glance fs s = .ok r → ¬ fs.has r := by
  intro r hr hhas
  rw [Kernel.glance,cstr_of_nulFree hnul] at hr
  split_ifs at hr with hsl
  · -- the path is walked to its end
    rw [Kernel.follow,cstr_of_nulFree hnul,if_neg (ne_nil habs),start habs] at hr
    have hwalk := Kernel.walk_components hr
    rw [hs] at hwalk
    obtain ⟨rfl,_⟩ := h.walk_only hperm hwalk
    exact hfree hhas
  · cases hsp : k.spot fs s with
    | error e => simp [hsp,Except.map] at hr
    | ok sp =>
      obtain rfl : sp.place = r := by simpa [hsp,Except.map] using hr
      rw [Kernel.spot,cstr_of_nulFree hnul,if_neg (ne_nil habs),start habs,hs] at hsp
      have hc := h.proper c (by simp)
      cases sp with
      | self p =>
        have hwalk := Kernel.spotFrom_self hsp
        obtain ⟨hp,_⟩ := h.walk_only hperm hwalk
        rw [Spot.place,hp] at hhas
        exact hfree hhas
      | name p d =>
        obtain ⟨_,_,_,hlast,hwalk⟩ := Kernel.spotFrom_name hsp
        rw [← List.append_assoc] at hlast hwalk
        rw [List.dropLast_concat] at hwalk
        obtain rfl : c = d := by simpa using hlast
        obtain ⟨rfl,_⟩ := (h.of_prefix (List.prefix_append _ _)).walk_only hperm hwalk
        rw [Spot.place,List.append_assoc] at hhas
        exact hfree hhas

/-- A look at the end of a path that leads to a directory shows it, or a link. -/
theorem glance_dir (habs : absolute s) (hnul : NulFree s)
    (hwalk : k.walk fs Kernel.maxLinks [] (components s) = .ok q) (hdir : fs.isDir q) :
    ∃ r n, k.glance fs s = .ok r ∧ fs.node r = some n ∧ (n.isDir = true ∨ ∃ t, n = .link t) ∧
      k.follow fs s = .ok q := by
  have hfollow : k.follow fs s = .ok q := by
    rw [Kernel.follow,cstr_of_nulFree hnul,if_neg (ne_nil habs),start habs,names]
    split
    · exact Kernel.walk_snoc hwalk fun again => Kernel.along_nil_name hdir
    · rwa [List.append_nil]
  have hglance : ∃ r, k.glance fs s = .ok r ∧ fs.has r := by
    rw [Kernel.glance,cstr_of_nulFree hnul]
    split
    · exact ⟨q,hfollow,FileSystem.has_of_isDir hdir⟩
    · obtain ⟨sp,hsp,hhas⟩ := Kernel.spotFrom_of_walk fs.has_root
        (fun c hc => (components_wellFormed hc).1) hwalk
      rw [Kernel.spot,cstr_of_nulFree hnul,if_neg (ne_nil habs),start habs,hsp]
      exact ⟨sp.place,rfl,hhas⟩
  obtain ⟨r,hr,hhas⟩ := hglance
  obtain ⟨n,hn⟩ := FileSystem.has_iff.mp hhas
  refine ⟨r,n,hr,hn,?_,hfollow⟩
  obtain ⟨m,hm⟩ := FileSystem.isDir_iff.mp hdir
  cases n with
  | dir m' => exact .inl rfl
  | link t => exact .inr ⟨t,rfl⟩
  | file content m' =>
    have hsame := Kernel.follow_of_glance hr hn (by simp)
    obtain rfl := Except.ok.inj (hfollow.symm.trans hsame)
    rw [hm] at hn
    simp at hn

end Path

end Way

/-- `fs'` has what `fs` has, and more only on the way to `p`: directories. -/
structure Extends (fs fs' : FileSystem) (p : Path) : Prop where
  le : fs.Le fs'
  new : ∀ r, fs'.has r → fs.has r ∨ r <+: p ∧ fs'.isDir r

namespace Extends

variable {k : Kernel} {fs fs' fs'' : FileSystem} {cs : List Name} {b rel p q : Path}

theorem refl (fs : FileSystem) (p : Path) : Extends fs fs p := ⟨.refl fs,fun _ h => .inl h⟩

theorem isDir_le (h : fs.Le fs') (hp : fs.isDir p) : fs'.isDir p := by
  obtain ⟨m,hm⟩ := FileSystem.isDir_iff.mp hp
  exact FileSystem.isDir_iff.mpr ⟨m,h _ _ hm⟩

theorem trans (h : Extends fs fs' p) (h' : Extends fs' fs'' p) : Extends fs fs'' p := by
  refine ⟨h.le.trans h'.le,fun r hr => ?_⟩
  rcases h'.new r hr with hold | hnew
  · rcases h.new r hold with hold | ⟨hpre,hdir⟩
    · exact .inl hold
    · exact .inr ⟨hpre,isDir_le h'.le hdir⟩
  · exact .inr hnew

theorem mono (h : Extends fs fs' p) (hpq : p <+: q) : Extends fs fs' q :=
  ⟨h.le,fun r hr => (h.new r hr).imp_right fun hn => ⟨hn.1.trans hpq,hn.2⟩⟩

theorem put {c : Name} {m : Nat} (h : fs.isDir p ∧ ProperName c) (hfree : ¬ fs.has (p ++ [c]))
    (hpre : p ++ [c] <+: q) : Extends fs ((Change.put p c (.dir m)).apply fs) q := by
  have hnode := Change.node_put (n := .dir m) (FileSystem.canPut_free h hfree)
  refine ⟨FileSystem.put_le h hfree,fun r hr => ?_⟩
  by_cases he : r = p ++ [c]
  · subst he
    refine .inr ⟨hpre,FileSystem.isDir_iff.mpr ⟨m,?_⟩⟩
    rw [hnode,if_pos rfl]
  · obtain ⟨n,hn⟩ := FileSystem.has_iff.mp hr
    rw [hnode,if_neg he] at hn
    exact .inl (FileSystem.has_iff.mpr ⟨n,hn⟩)

theorem way (h : Extends fs fs' p) (hway : Way k fs cs b rel) : Way k fs' cs b rel := by
  refine ⟨Kernel.walk_le h.le hway.base,isDir_le h.le hway.isDir,hway.proper,fun t ht hhas => ?_⟩
  rcases h.new _ hhas with hold | ⟨_,hdir⟩
  · exact isDir_le h.le (hway.dirs t ht hold)
  · exact hdir

end Extends

end Posix
