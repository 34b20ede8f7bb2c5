import RootHelper.Posix.Answers

/-!
Following links without a bound on their number. A path leads somewhere when some number of links is
enough, and then more make no difference. From the directory it is in a name needs no more of them than
its path does.
-/

set_option autoImplicit false

namespace Posix

namespace Kernel

section Walks

variable {k : Kernel} {fs : FileSystem} {n m : Nat} {cur p q : Path} {cs : List Name}

theorem along_mono {again again' : Path → List Name → Except Errno Path}
    (hagain : ∀ p cs q, again p cs = .ok q → again' p cs = .ok q)
    (h : k.along fs again cur cs = .ok q) : k.along fs again' cur cs = .ok q :=
  along_le (FileSystem.Le.refl fs) hagain h

theorem walk_succ (h : k.walk fs n cur cs = .ok q) : k.walk fs (n+1) cur cs = .ok q := by
  induction n generalizing cur cs q with
  | zero => exact along_mono (fun _ _ _ h => by simp at h) h
  | succ n ih => exact along_mono (fun _ _ _ h => ih h) h

theorem walk_mono (h : k.walk fs n cur cs = .ok q) (hle : n ≤ m) : k.walk fs m cur cs = .ok q := by
  induction hle with
  | refl => exact h
  | step _ ih => exact walk_succ ih

theorem walk_unique (h : k.walk fs n cur cs = .ok p) (h' : k.walk fs m cur cs = .ok q) : p = q :=
  Except.ok.inj ((walk_mono h (Nat.le_max_left n m)).symm.trans (walk_mono h' (Nat.le_max_right n m)))

theorem along_append_ok {again again' : Path → List Name → Except Errno Path} {ds : List Name}
    (hagain : ∀ p' es, again p' es = .ok p → again' p' (es ++ ds) = .ok q)
    (hend : k.along fs again' p ds = .ok q) (h : k.along fs again cur cs = .ok p) :
    k.along fs again' cur (cs ++ ds) = .ok q := by
  induction cs generalizing cur with
  | nil =>
    obtain rfl : cur = p := by simpa [along] using h
    exact hend
  | cons c cs ih =>
    rw [List.cons_append]
    unfold along at h ⊢
    cases hn : fs.node cur with
    | none => simp [hn] at h
    | some n =>
      cases n with
      | file content m => simp [hn] at h
      | link t => simp [hn] at h
      | dir m =>
        simp only [hn] at h ⊢
        split_ifs at h ⊢
        · exact ih h
        · exact ih h
        · exact ih h
        · cases hc : fs.node (cur ++ [c]) with
          | none => simp [hc] at h
          | some n' =>
            cases n' with
            | file content m' => simp only [hc] at h ⊢; exact ih h
            | dir m' => simp only [hc] at h ⊢; exact ih h
            | link t =>
              simp only [hc] at h ⊢
              rw [← List.append_assoc]
              exact hagain _ _ h

theorem walk_join {ds : List Name} (h : k.walk fs n cur cs = .ok p) (h' : k.walk fs m p ds = .ok q) :
    k.walk fs (n+m) cur (cs ++ ds) = .ok q := by
  induction n generalizing cur cs with
  | zero =>
    rw [Nat.zero_add]
    cases m with
    | zero => exact along_append_ok (fun _ _ h => by simp at h) h' h
    | succ m => exact along_append_ok (fun _ _ h => by simp at h) h' h
  | succ n ih =>
    have hend := walk_mono h' (Nat.le_add_left m (n+1))
    rw [Nat.succ_add] at hend ⊢
    exact along_append_ok (fun p' es hes => ih hes) hend h

end Walks

variable (k : Kernel) (fs : FileSystem)

open Classical in
/-- Where the names lead from `cur`. -/
noncomputable def resolve (cur : Path) (cs : List Name) : Option Path :=
  if h : ∃ q n, k.walk fs n cur cs = .ok q then some h.choose else none

theorem resolve_eq_some {cur q : Path} {cs : List Name} :
    k.resolve fs cur cs = some q ↔ ∃ n, k.walk fs n cur cs = .ok q := by
  unfold resolve
  split_ifs with h
  · obtain ⟨n,hn⟩ := h.choose_spec
    rw [Option.some.injEq]
    exact ⟨fun heq => ⟨n,heq ▸ hn⟩,fun ⟨m,hm⟩ => walk_unique hn hm⟩
  · exact iff_of_false (by simp) fun ⟨n,hn⟩ => h ⟨q,n,hn⟩

theorem resolve_append {cur p q : Path} {cs ds : List Name} (h : k.resolve fs cur cs = some p)
    (h' : k.resolve fs p ds = some q) : k.resolve fs cur (cs ++ ds) = some q := by
  obtain ⟨n,hn⟩ := (k.resolve_eq_some fs).mp h
  obtain ⟨m,hm⟩ := (k.resolve_eq_some fs).mp h'
  exact (k.resolve_eq_some fs).mpr ⟨n+m,walk_join hn hm⟩

/-- `follow` with as many links as there are. -/
noncomputable def followAll (s : Str) : Option Path :=
  if cstr s = [] then none else k.resolve fs (k.start (cstr s)) (names (cstr s))

/-- `glance` so, where the path does not end in a slash. -/
noncomputable def glanceAll (s : Str) : Option Path :=
  if cstr s = [] then none
  else if endsWithSlash (cstr s) then k.followAll fs s
  else match (components (cstr s)).getLast? with
    | none => some (k.start (cstr s))
    | some c => do
      let p ← k.resolve fs (k.start (cstr s)) (components (cstr s)).dropLast
      match fs.node p with
      | some (.dir m) =>
        if k.permits p c m = false then none
        else if c = dotName then some p
        else if c = dotdotName then some p.dropLast
        else some (p ++ [c])
      | _ => none

/-- What the calls answer where neither paths nor links are too many. -/
noncomputable def answersAll (readable : Str → Bool) : Answers where
  lstat s := ((k.glanceAll fs s).bind fs.node).map Node.stat
  stat s := ((k.followAll fs s).bind fs.node).map Node.stat
  readlink s :=
    match (k.glanceAll fs s).bind fs.node with
    | some (.link target) => some target
    | _ => none
  opendir s :=
    match k.followAll fs s with
    | some p => if readable s ∧ fs.isDir p then some (fs.children p) else none
    | none => none

variable {k fs} {s : Str} {p : Path} {c : Name} {m : Nat}

theorem followAll_resolves (hs : NulFree s) (h : k.followAll fs s = some p) :
    s ≠ [] ∧ k.resolve fs (k.start s) (components s) = some p := by
  rw [followAll,cstr_of_nulFree hs] at h
  split_ifs at h with hnil
  obtain ⟨n,hn⟩ := (k.resolve_eq_some fs).mp h
  exact ⟨hnil,(k.resolve_eq_some fs).mpr ⟨n,walk_components hn⟩⟩

theorem entry_spelling (hs : NulFree s) (hc : ProperName c) (hne : s ≠ []) :
    NulFree (s ++ slash :: c) ∧ ¬ endsWithSlash (s ++ slash :: c) ∧
      k.start (s ++ slash :: c) = k.start s := by
  have habs : absolute (s ++ slash :: c) ↔ absolute s := by
    rw [absolute,absolute,List.head?_append_of_ne_nil _ hne]
  refine ⟨?_,fun hend => ?_,by simp only [start,habs]⟩
  · simpa [NulFree,slash] using ⟨hs,hc.2.2.1⟩
  · rw [endsWithSlash,List.getLast?_append_of_ne_nil _ (by simp),
      List.getLast?_cons_of_ne_nil hc.1] at hend
    exact hc.2.1 (List.mem_of_getLast? hend)

theorem glanceAll_child (hs : NulFree s) (hc : ProperName c) (h : k.followAll fs s = some p)
    (hp : fs.node p = some (.dir m)) :
    k.glanceAll fs (s ++ slash :: c) = if k.permits p c m then some (p ++ [c]) else none := by
  obtain ⟨hne,hparent⟩ := followAll_resolves hs h
  obtain ⟨hnul,hend,hstart⟩ := @entry_spelling k s c hs hc hne
  rw [glanceAll,cstr_of_nulFree hnul,if_neg (by simp),if_neg hend,components_concat_name s hc,hstart]
  simp only [List.getLast?_append,List.getLast?_singleton,Option.some_or,List.dropLast_concat,hparent,
    Option.bind_eq_bind,Option.bind_some,hp,hc.2.2.2.1,hc.2.2.2.2,if_false]
  cases k.permits p c m <;> simp

theorem followAll_entry (hs : NulFree s) (hc : ProperName c) (h : k.followAll fs s = some p) {q : Path}
    (hq : k.resolve fs p [c] = some q) : k.followAll fs (s ++ slash :: c) = some q := by
  obtain ⟨hne,hparent⟩ := followAll_resolves hs h
  obtain ⟨hnul,hend,hstart⟩ := @entry_spelling k s c hs hc hne
  rw [followAll,cstr_of_nulFree hnul,if_neg (by simp),hstart,names,if_neg hend,List.append_nil,
    components_concat_name s hc]
  exact k.resolve_append fs hparent hq

theorem answersAll_shows (k : Kernel) (fs : FileSystem) (readable : Str → Bool) :
    (k.answersAll fs readable).Shows fs (k.followAll fs) where
  opendir {s names} h := by
    simp only [answersAll] at h
    cases hp : k.followAll fs s with
    | none => simp [hp] at h
    | some p =>
      simp only [hp] at h
      split_ifs at h with hread
      obtain rfl := Option.some.inj h
      exact ⟨p,rfl,hread.2,List.Perm.refl _⟩
  entry {s p c st} hs hc hp hdir h := by
    obtain ⟨m,hm⟩ := FileSystem.isDir_iff.mp hdir
    have hglance := glanceAll_child hs hc hp hm
    obtain ⟨n,hn,rfl⟩ := Option.map_eq_some_iff.mp h
    rw [hglance] at hn
    split_ifs at hn with hpermits
    · refine ⟨n,hn,rfl,fun hd => followAll_entry hs hc hp ?_⟩
      refine (k.resolve_eq_some fs).mpr ⟨0,along_name hm hc hpermits hn ?_⟩
      rintro t rfl
      simp [Node.isDir] at hd
    · simp at hn

section WorkingDirs

variable {k : Kernel} {fs : FileSystem} {s : Str} {p q : Path} {c : Name}

theorem along_cwd (d : Path) (again : Path → List Name → Except Errno Path) (cur : Path)
    (cs : List Name) : ({ k with cwd := d } : Kernel).along fs again cur cs = k.along fs again cur cs := by
  induction cs generalizing cur with
  | nil => rfl
  | cons c cs ih => simp only [along,ih]

theorem walk_cwd (d : Path) (n : Nat) (cur : Path) (cs : List Name) :
    ({ k with cwd := d } : Kernel).walk fs n cur cs = k.walk fs n cur cs := by
  induction n generalizing cur cs with
  | zero => exact along_cwd d _ cur cs
  | succ n ih =>
    have hsame : ({ k with cwd := d } : Kernel).walk fs n = k.walk fs n := by
      funext cur cs
      exact ih cur cs
    rw [walk,walk,hsame]
    exact along_cwd d _ cur cs

theorem follow_here (hs : NulFree s) (hc : ProperName c) (hp : k.follow fs s = .ok p)
    (h : k.follow fs (s ++ slash :: c) = .ok q) : ({ k with cwd := p } : Kernel).follow fs c = .ok q := by
  have hsne : s ≠ [] := by
    rintro rfl
    simp [follow,cstr] at hp
  obtain ⟨hnul,hend,hstart⟩ := @entry_spelling k s c hs hc hsne
  rw [follow,cstr_of_nulFree hs,if_neg hsne] at hp
  rw [follow,cstr_of_nulFree hnul,if_neg (by simp),hstart,names,if_neg hend,List.append_nil,
    components_concat_name s hc] at h
  obtain ⟨r,hr,m,hle,hm⟩ := walk_append_le h
  obtain rfl := Except.ok.inj (hr.symm.trans (walk_components hp))
  have hcnul : NulFree c := hc.2.2.1
  have hrel : ¬ absolute c := fun habs => hc.2.1 (List.mem_of_mem_head? habs)
  have hcend : ¬ endsWithSlash c := fun hslash => hc.2.1 (List.mem_of_getLast? hslash)
  rw [follow,cstr_of_nulFree hcnul,if_neg hc.1,start,if_neg hrel,names,if_neg hcend,List.append_nil,
    hc.components,walk_cwd]
  exact walk_mono hm hle

/-- Where a path leads somewhere, there is something at its end. -/
theorem glance_of_follow (h : k.follow fs s = .ok p) : ∃ q, k.glance fs s = .ok q ∧ fs.has q := by
  rw [glance]
  split_ifs with hend
  · exact ⟨p,h,follow_has h⟩
  · have hwalk := h
    rw [follow] at hwalk
    split_ifs at hwalk with hnil
    rw [names,if_neg hend,List.append_nil] at hwalk
    obtain ⟨c,cs,hcs⟩ := List.exists_cons_of_ne_nil (components_ne_nil_of_end hnil hend)
    have hfrom : fs.has (k.start (cstr s)) := by
      rw [hcs] at hwalk
      exact has_of_walk_cons hwalk
    obtain ⟨sp,hsp,hhas⟩ := spotFrom_of_walk hfrom (fun d hd => (components_wellFormed hd).1) hwalk
    refine ⟨sp.place,?_,hhas⟩
    rw [spot,if_neg hnil,hsp]
    rfl

theorem answers_listed {readable : Str → Bool} (h : ((k.answers fs readable).opendir s).isSome) :
    ∃ st, (k.answers fs readable).lstat s = some st ∧ (st.kind = .dir ∨ st.kind = .link ∧
      ∃ st', (k.answers fs readable).stat s = some st' ∧ st'.kind = .dir) := by
  obtain ⟨names,hnames⟩ := Option.isSome_iff_exists.mp h
  obtain ⟨p,hp,hdir,_⟩ := (k.answers_shows fs readable).opendir hnames
  have hfollow := ok_of_toOption hp
  obtain ⟨m,hm⟩ := FileSystem.isDir_iff.mp hdir
  obtain ⟨q,hq,hhas⟩ := glance_of_follow hfollow
  obtain ⟨n,hn⟩ := FileSystem.has_iff.mp hhas
  have hstat : (k.answers fs readable).stat s = some (Node.stat (.dir m)) := by
    simp [answers,hfollow,nodeAt,bind,Except.bind,hm,Except.toOption]
  have hlstat : (k.answers fs readable).lstat s = some n.stat := by
    simp [answers,hq,nodeAt,bind,Except.bind,hn,Except.toOption]
  refine ⟨n.stat,hlstat,?_⟩
  cases n with
  | link t => exact .inr ⟨rfl,_,hstat,rfl⟩
  | dir m' => exact .inl rfl
  | file content m' =>
    obtain rfl := Except.ok.inj ((follow_of_glance hq hn (by simp)).symm.trans hfollow)
    rw [hm] at hn
    cases hn

/-- In the working directory a name is looked at like the path behind the directory's. -/
theorem answers_here {readable : Str → Bool} (hs : NulFree s) (hc : ProperName c)
    (hp : k.follow fs s = .ok p) (h : ((k.answers fs readable).opendir (s ++ slash :: c)).isSome) :
    ∃ st, (({ k with cwd := p } : Kernel).answers fs readable).stat c = some st ∧ st.kind = .dir := by
  obtain ⟨names,hnames⟩ := Option.isSome_iff_exists.mp h
  obtain ⟨q,hq,hdir,_⟩ := (k.answers_shows fs readable).opendir hnames
  have hfollow := ok_of_toOption hq
  obtain ⟨m,hm⟩ := FileSystem.isDir_iff.mp hdir
  refine ⟨Node.stat (.dir m),?_,rfl⟩
  simp [answers,follow_here hs hc hp hfollow,nodeAt,bind,Except.bind,hm,Except.toOption]

end WorkingDirs

end Kernel
end Posix
