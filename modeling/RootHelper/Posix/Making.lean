import RootHelper.Posix.Calls

/-!
Making a directory at a path: what stands there before, and what the paths above it have to do with it.
-/

set_option autoImplicit false

namespace Posix
namespace Kernel

section Places

variable (k : Kernel) (fs : FileSystem) (s : Str)

/-- `lstat` finds something. -/
def ExistsAt : Prop := ∃ q, k.glance fs s = .ok q ∧ fs.has q

/-- `stat` finds a directory. -/
def DirAt : Prop := ∃ q, k.follow fs s = .ok q ∧ fs.isDir q

/-- The last step of the path finds something, also where it is a link that leads nowhere. -/
def Taken : Prop := ∃ sp, k.spot fs s = .ok sp ∧ fs.has sp.place

end Places

variable {k : Kernel} {fs fs' : FileSystem} {s x y : Str} {n : Node}

theorem along_ne_EEXIST {again : Path → List Name → Except Errno Path}
    (hagain : ∀ p cs, again p cs ≠ .error .EEXIST) (cur : Path) (cs : List Name) :
    k.along fs again cur cs ≠ .error .EEXIST := by
  induction cs generalizing cur with
  | nil => simp [along]
  | cons c cs ih =>
    unfold along
    cases fs.node cur with
    | none => simp
    | some n =>
      cases n with
      | file content m => simp
      | link t => simp
      | dir m =>
        simp only
        split_ifs
        · exact ih _
        · simp
        · exact ih _
        · exact ih _
        · cases fs.node (cur ++ [c]) with
          | none => simp
          | some n' =>
            cases n' with
            | file content m' => exact ih _
            | dir m' => exact ih _
            | link t => exact hagain _ _

theorem walk_ne_EEXIST (i : Nat) (cur : Path) (cs : List Name) :
    k.walk fs i cur cs ≠ .error .EEXIST := by
  induction i generalizing cur cs with
  | zero => exact along_ne_EEXIST (fun _ _ => by simp) cur cs
  | succ i ih => exact along_ne_EEXIST (fun p cs => ih p cs) cur cs

theorem spot_ne_EEXIST : k.spot fs s ≠ .error .EEXIST := by
  unfold spot spotFrom
  split_ifs
  · simp
  · cases (components (cstr s)).getLast? with
    | none => simp
    | some c =>
      simp only
      cases hw : k.walk fs maxLinks (k.start (cstr s)) (components (cstr s)).dropLast with
      | error e =>
        have hne := @walk_ne_EEXIST k fs maxLinks (k.start (cstr s)) (components (cstr s)).dropLast
        rw [hw] at hne
        simpa [bind,Except.bind] using hne
      | ok p =>
        simp only [bind,Except.bind]
        cases fs.node p with
        | none => simp
        | some n =>
          cases n with
          | file content m => simp
          | link t => simp
          | dir m =>
            simp only
            split_ifs <;> simp

theorem absolute_cstr (h : absolute s) : absolute (cstr s) := by
  cases s with
  | nil => simp [absolute] at h
  | cons b s =>
    obtain rfl : b = slash := by simpa [absolute] using h
    simp [absolute,cstr,slash]

theorem absolute_append (h : absolute x) (y : Str) : absolute (x ++ y) := by
  cases x with
  | nil => simp [absolute] at h
  | cons b x => exact h

theorem start_absolute (h : absolute (cstr s)) : k.start (cstr s) = [] := if_pos h

theorem cstr_ne_nil_of_absolute (h : absolute (cstr s)) : cstr s ≠ [] := by
  intro hnil
  rw [hnil] at h
  simp [absolute] at h

theorem makeEffect_eq_taken (habs : absolute (cstr s)) :
    k.makeEffect s n fs = .error .EEXIST ↔ k.Taken fs s := by
  unfold makeEffect Taken
  cases hs : k.spot fs s with
  | error e =>
    have hne := @spot_ne_EEXIST k fs s
    rw [hs] at hne
    simpa [bind,Except.bind] using hne
  | ok sp =>
    simp only [bind,Except.bind,Except.ok.injEq,exists_eq_left']
    cases sp with
    | self p =>
      have hp : fs.has p := by
        rw [spot,if_neg (cstr_ne_nil_of_absolute habs),start_absolute habs] at hs
        exact walk_has fs.has_root (spotFrom_self hs)
      simp [Spot.place,hp]
    | name p c =>
      simp only [Spot.place]
      cases hhas : fs.has (p ++ [c])
      · simp only [Bool.false_eq_true,if_false,iff_false]
        split_ifs <;> simp
      · simp

theorem taken_of_walk (habs : absolute (cstr s)) {q : Path}
    (h : k.walk fs maxLinks [] (components (cstr s)) = .ok q) : k.Taken fs s := by
  rw [← start_absolute (k := k) habs] at h
  have hstart : fs.has (k.start (cstr s)) := by
    rw [start_absolute habs]
    exact fs.has_root
  exact (makeEffect_eq_taken (n := .dir 0) habs).mp
    (makeEffect_taken (cstr_ne_nil_of_absolute habs) hstart h)

theorem DirAt.taken (habs : absolute (cstr s)) (h : k.DirAt fs s) : k.Taken fs s := by
  obtain ⟨q,hq,_⟩ := h
  rw [follow,if_neg (cstr_ne_nil_of_absolute habs),start_absolute habs] at hq
  exact taken_of_walk habs (walk_components hq)

theorem ExistsAt.taken (habs : absolute (cstr s)) (h : k.ExistsAt fs s) : k.Taken fs s := by
  obtain ⟨q,hq,hhas⟩ := h
  unfold glance at hq
  split_ifs at hq with hsl
  · rw [follow,if_neg (cstr_ne_nil_of_absolute habs),start_absolute habs] at hq
    exact taken_of_walk habs (walk_components hq)
  · cases hs : k.spot fs s with
    | error e => simp [hs,Except.map] at hq
    | ok sp =>
      simp only [hs,Except.map,Except.ok.injEq] at hq
      exact ⟨sp,hs,hq ▸ hhas⟩

theorem ExistsAt.mono (hle : fs.Le fs') (h : k.ExistsAt fs s) : k.ExistsAt fs' s := by
  obtain ⟨q,hq,hhas⟩ := h
  obtain ⟨n,hn⟩ := FileSystem.has_iff.mp hhas
  exact ⟨q,glance_le hle hq,FileSystem.has_iff.mpr ⟨n,hle _ _ hn⟩⟩

theorem Taken.above (habs : absolute x) (h : k.Taken fs (x ++ slash :: y)) :
    k.Taken fs x := by
  have hcx : absolute (cstr x) := absolute_cstr habs
  have hcs : absolute (cstr (x ++ slash :: y)) := absolute_cstr (absolute_append habs _)
  by_cases hnul : NulFree x
  · have hcstr : cstr (x ++ slash :: y) = x ++ slash :: cstr y := by
      rw [cstr_append_of_nulFree hnul]
      rfl
    obtain ⟨sp,hsp,hhas⟩ := h
    rw [spot,if_neg (cstr_ne_nil_of_absolute hcs),start_absolute hcs,hcstr,components_append_slash] at hsp
    rcases List.eq_nil_or_concat' (components (cstr y)) with hnil | ⟨cs,c,hcs'⟩
    · -- only slashes come after it
      refine ⟨sp,?_,hhas⟩
      rw [spot,if_neg (cstr_ne_nil_of_absolute hcx),start_absolute hcx,cstr_of_nulFree hnul,← hsp,hnil,
        List.append_nil]
    · rw [hcs',← List.append_assoc] at hsp
      have hwalk : ∃ r, k.walk fs maxLinks [] (components x ++ cs) = .ok r := by
        unfold spotFrom at hsp
        simp only [List.getLast?_append,List.getLast?_singleton,Option.some_or,List.dropLast_concat] at hsp
        cases hw : k.walk fs maxLinks [] (components x ++ cs) with
        | error e => simp [hw,bind,Except.bind] at hsp
        | ok r => exact ⟨r,rfl⟩
      obtain ⟨r,hr⟩ := hwalk
      obtain ⟨r',_,hr',_⟩ := walk_append hr
      exact taken_of_walk hcx (by rw [cstr_of_nulFree hnul]; exact hr')
  · have hcstr : cstr (x ++ slash :: y) = cstr x := cstr_append_of_nul hnul _
    obtain ⟨sp,hsp,hhas⟩ := h
    refine ⟨sp,?_,hhas⟩
    rwa [spot,hcstr] at hsp

theorem follow_root : k.follow fs [slash] = .ok [] := by
  have hnames : names (cstr [slash]) = [[]] := by decide
  have hstart : k.start (cstr [slash]) = [] := if_pos (by decide)
  rw [follow,if_neg (by decide),hnames,hstart]
  exact along_nil_name fs.root

section Made

variable {p : Path} {c : Name} {m : Nat}

theorem glance_put (h : k.spot fs s = .ok (.name p c)) (hfree : ¬ fs.has (p ++ [c])) :
    k.glance ((Change.put p c (.dir m)).apply fs) s = .ok (p ++ [c]) := by
  have hdir := spot_name h
  have hle := FileSystem.put_le (n := .dir m) hdir hfree
  have hspot : k.spot ((Change.put p c (.dir m)).apply fs) s = .ok (.name p c) := by
    unfold spot at h ⊢
    split_ifs at h ⊢
    exact spotFrom_le hle h
  by_cases hsl : endsWithSlash (cstr s)
  · refine glance_of_spot_dir hspot ⟨m,?_⟩ hsl
    rw [Change.node_put (FileSystem.canPut_free hdir hfree),if_pos rfl]
  · rw [glance,if_neg hsl,hspot]
    rfl

theorem dirAt_put (h : k.spot fs s = .ok (.name p c)) (hfree : ¬ fs.has (p ++ [c])) :
    k.DirAt ((Change.put p c (.dir m)).apply fs) s := by
  have hnode : ((Change.put p c (.dir m)).apply fs).node (p ++ [c]) = some (.dir m) := by
    rw [Change.node_put (FileSystem.canPut_free (spot_name h) hfree),if_pos rfl]
  exact ⟨_,follow_of_glance (glance_put h hfree) hnode (by simp),FileSystem.isDir_iff.mpr ⟨m,hnode⟩⟩

end Made

end Kernel
end Posix
