import RootHelper.Posix.FileSystem

/-!
How the kernel finds the place a path string names: component by component from the root or the
working directory, through links, asking at each directory whether a name may be looked up there.
-/

set_option autoImplicit false

namespace Posix

inductive Errno where
  | ENOENT | EACCES | ENOTDIR | EEXIST | EISDIR | ENOTEMPTY | EBUSY | EINVAL | ELOOP | EPERM
  | other (code : Nat)
  deriving DecidableEq, Repr

def Errno.code : Errno → Nat
  | ENOENT => 2 | EACCES => 13 | ENOTDIR => 20 | EEXIST => 17 | EISDIR => 21 | ENOTEMPTY => 39
  | EBUSY => 16 | EINVAL => 22 | ELOOP => 40 | EPERM => 1 | other code => code

/-- What one process is given: its working directory, whether a name may be looked up in a
directory of a given mode, and what its file creation mask leaves of a mode. -/
structure Kernel where
  cwd : Path
  permits : Path → Name → Nat → Bool
  masked : Nat → Nat

/-- The components, and after a trailing slash the empty name, which asks for a directory. -/
def names (s : Str) : List Name :=
  components s ++ if endsWithSlash s then [[]] else []

/-- The end of a path: a name in a directory, or a directory itself (`/`, `.` and `..`). -/
inductive Spot where
  | name (p : Path) (c : Name)
  | self (p : Path)
  deriving DecidableEq

def Spot.place : Spot → Path
  | .name p c => p ++ [c]
  | .self p => p

namespace Kernel

variable (k : Kernel) (fs : FileSystem)

def start (s : Str) : Path := if absolute s then [] else k.cwd

/-- Walks the names from `cur`; `again` goes on after a link. -/
def along (again : Path → List Name → Except Errno Path) : Path → List Name → Except Errno Path
  | cur, [] => .ok cur
  | cur, c :: cs =>
    match fs.node cur with
    | some (.dir m) =>
      if c = [] then along again cur cs
      else if k.permits cur c m = false then .error .EACCES
      else if c = dotName then along again cur cs
      else if c = dotdotName then along again cur.dropLast cs
      else match fs.node (cur ++ [c]) with
        | some (.link t) => again (if absolute t then [] else cur) (names t ++ cs)
        | some _ => along again (cur ++ [c]) cs
        | none => .error .ENOENT
    | some _ => .error .ENOTDIR
    | none => .error .ENOENT

/-- At most `n` links are followed on the way. -/
def walk : Nat → Path → List Name → Except Errno Path
  | 0 => k.along fs fun _ _ => .error .ELOOP
  | n+1 => k.along fs (walk n)

def maxLinks : Nat := 40

/-- The place of `s` with every link followed; it exists. -/
def follow (s : Str) : Except Errno Path :=
  if cstr s = [] then .error .ENOENT
  else k.walk fs maxLinks (k.start (cstr s)) (names (cstr s))

/-- The last step of a path: everything before the last component is walked. -/
def spotFrom (from_ : Path) (cs : List Name) : Except Errno Spot :=
  match cs.getLast? with
  | none => .ok (.self from_)
  | some c => do
    let p ← k.walk fs maxLinks from_ cs.dropLast
    match fs.node p with
    | some (.dir m) =>
      if k.permits p c m = false then .error .EACCES
      else if c = dotName then .ok (.self p)
      else if c = dotdotName then .ok (.self p.dropLast)
      else .ok (.name p c)
    | some _ => .error .ENOTDIR
    | none => .error .ENOENT

def spot (s : Str) : Except Errno Spot :=
  if cstr s = [] then .error .ENOENT
  else k.spotFrom fs (k.start (cstr s)) (components (cstr s))

/-- The place of `s` when a link at its end is not followed; nothing need be there. -/
def glance (s : Str) : Except Errno Path :=
  if endsWithSlash (cstr s) then k.follow fs s
  else (k.spot fs s).map Spot.place

/-- Where an opening call that may create goes: through links at the end, dangling ones too. -/
def createSpot : Nat → Path → List Name → Except Errno (Path × Name)
  | 0, _, _ => .error .ELOOP
  | n+1, from_, cs => do
    match ← k.spotFrom fs from_ cs with
    | .self _ => .error .EISDIR
    | .name p c =>
      match fs.node (p ++ [c]) with
      | some (.link t) =>
        if endsWithSlash (cstr t) then .error .EISDIR
        else createSpot n (if absolute t then [] else p) (components (cstr t))
      | some (.dir _) => .error .EISDIR
      | _ => .ok (p,c)

end Kernel

/-- Everything of `fs` is also in `fs'`. -/
def FileSystem.Le (fs fs' : FileSystem) : Prop := ∀ p n, fs.node p = some n → fs'.node p = some n

theorem FileSystem.Le.refl (fs : FileSystem) : fs.Le fs := fun _ _ h => h

theorem FileSystem.Le.trans {fs fs' fs'' : FileSystem} (h : fs.Le fs') (h' : fs'.Le fs'') :
    fs.Le fs'' := fun p n hp => h' p n (h p n hp)

theorem FileSystem.canPut_free {fs : FileSystem} {p : Path} {c : Name} {n : Node}
    (h : fs.isDir p ∧ ProperName c) (hfree : ¬ fs.has (p ++ [c])) : fs.CanPut p c n :=
  ⟨h.1,h.2,fun hd => absurd (FileSystem.has_of_isDir hd) hfree⟩

theorem FileSystem.put_le {fs : FileSystem} {p : Path} {c : Name} {n : Node}
    (h : fs.isDir p ∧ ProperName c) (hfree : ¬ fs.has (p ++ [c])) :
    fs.Le ((Change.put p c n).apply fs) := by
  intro r nd hr
  have hne : r ≠ p ++ [c] := fun e => hfree (e ▸ FileSystem.has_iff.mpr ⟨nd,hr⟩)
  rw [Change.node_put (canPut_free h hfree),if_neg hne]
  exact hr

namespace Kernel

variable {k : Kernel} {fs fs' : FileSystem}

theorem along_le (hle : fs.Le fs') {again again' : Path → List Name → Except Errno Path}
    (hagain : ∀ p cs q, again p cs = .ok q → again' p cs = .ok q) {cur q : Path} {cs : List Name}
    (h : k.along fs again cur cs = .ok q) : k.along fs' again' cur cs = .ok q := by
  induction cs generalizing cur with
  | nil => exact h
  | cons c cs ih =>
    unfold along at h ⊢
    cases hn : fs.node cur with
    | none => simp [hn] at h
    | some n =>
      rw [hle _ _ hn]
      cases n with
      | file content m => simp [hn] at h
      | link t => simp [hn] at h
      | dir m =>
        simp only [hn] at h ⊢
        split_ifs at h ⊢
        · exact ih h
        · exact ih h
        · exact ih h
        · cases hc : fs.node (cur ++ [c]) with
          | none => simp [hc] at h
          | some n' =>
            rw [hle _ _ hc]
            cases n' with
            | file content m' => simp only [hc] at h ⊢; exact ih h
            | dir m' => simp only [hc] at h ⊢; exact ih h
            | link t => simp only [hc] at h ⊢; exact hagain _ _ _ h

theorem walk_le (hle : fs.Le fs') {n : Nat} {cur q : Path} {cs : List Name}
    (h : k.walk fs n cur cs = .ok q) : k.walk fs' n cur cs = .ok q := by
  induction n generalizing cur cs q with
  | zero => exact along_le hle (fun _ _ _ h => by simp at h) h
  | succ n ih => exact along_le hle (fun _ _ _ h => ih h) h

theorem spotFrom_le (hle : fs.Le fs') {p : Path} {cs : List Name} {sp : Spot}
    (h : k.spotFrom fs p cs = .ok sp) : k.spotFrom fs' p cs = .ok sp := by
  unfold spotFrom at h ⊢
  cases hl : cs.getLast? with
  | none => simpa [hl] using h
  | some c =>
    simp only [hl] at h ⊢
    cases hw : k.walk fs maxLinks p cs.dropLast with
    | error e => simp [hw,bind,Except.bind] at h
    | ok q =>
      rw [walk_le hle hw]
      simp only [hw,bind,Except.bind] at h ⊢
      cases hn : fs.node q with
      | none => simp [hn] at h
      | some n => rw [hle _ _ hn]; simpa [hn] using h

theorem follow_le (hle : fs.Le fs') {s : Str} {q : Path} (h : k.follow fs s = .ok q) :
    k.follow fs' s = .ok q := by
  unfold follow at h ⊢
  split_ifs at h ⊢
  exact walk_le hle h

theorem glance_le (hle : fs.Le fs') {s : Str} {q : Path} (h : k.glance fs s = .ok q) :
    k.glance fs' s = .ok q := by
  unfold glance spot at h ⊢
  split_ifs at h ⊢
  · exact follow_le hle h
  · simp [Except.map] at h
  · cases hs : k.spotFrom fs (k.start (cstr s)) (components (cstr s)) with
    | error e => simp [hs,Except.map] at h
    | ok sp => rw [spotFrom_le hle hs]; simpa [hs] using h

theorem along_agree (hff : ∀ p n n', fs.node p = some n → fs'.node p = some n' → n = n')
    {again again' : Path → List Name → Except Errno Path}
    (hagain : ∀ p cs q q', again p cs = .ok q → again' p cs = .ok q' → q = q') {cur q q' : Path}
    {cs : List Name} (h : k.along fs again cur cs = .ok q)
    (h' : k.along fs' again' cur cs = .ok q') : q = q' := by
  induction cs generalizing cur with
  | nil =>
    simp only [along,Except.ok.injEq] at h h'
    rw [← h,h']
  | cons c cs ih =>
    unfold along at h h'
    cases hn : fs.node cur with
    | none => simp [hn] at h
    | some n =>
      cases hn' : fs'.node cur with
      | none => simp [hn'] at h'
      | some n' =>
        obtain rfl := hff _ _ _ hn hn'
        cases n with
        | file content m => simp [hn] at h
        | link t => simp [hn] at h
        | dir m =>
          simp only [hn] at h
          simp only [hn'] at h'
          split_ifs at h h'
          · exact ih h h'
          · exact ih h h'
          · exact ih h h'
          · cases hc : fs.node (cur ++ [c]) with
            | none => simp [hc] at h
            | some d =>
              cases hc' : fs'.node (cur ++ [c]) with
              | none => simp [hc'] at h'
              | some d' =>
                obtain rfl := hff _ _ _ hc hc'
                cases d with
                | file content m' => simp only [hc] at h; simp only [hc'] at h'; exact ih h h'
                | dir m' => simp only [hc] at h; simp only [hc'] at h'; exact ih h h'
                | link t => simp only [hc] at h; simp only [hc'] at h'; exact hagain _ _ _ _ h h'

/-- Two walks that both succeed meet the same things on the way, so they end at one place. -/
theorem walk_agree (hff : ∀ p n n', fs.node p = some n → fs'.node p = some n' → n = n') {n : Nat}
    {cur q q' : Path} {cs : List Name} (h : k.walk fs n cur cs = .ok q)
    (h' : k.walk fs' n cur cs = .ok q') : q = q' := by
  induction n generalizing cur cs q q' with
  | zero => exact along_agree hff (fun _ _ _ _ h => by simp at h) h h'
  | succ n ih => exact along_agree hff (fun _ _ _ _ h h' => ih h h') h h'

theorem spotFrom_agree (hff : ∀ p n n', fs.node p = some n → fs'.node p = some n' → n = n')
    {p : Path} {cs : List Name} {sp sp' : Spot} (h : k.spotFrom fs p cs = .ok sp)
    (h' : k.spotFrom fs' p cs = .ok sp') : sp = sp' := by
  unfold spotFrom at h h'
  cases hl : cs.getLast? with
  | none =>
    simp only [hl,Except.ok.injEq] at h h'
    rw [← h,h']
  | some c =>
    simp only [hl] at h h'
    cases hw : k.walk fs maxLinks p cs.dropLast with
    | error e => simp [hw,bind,Except.bind] at h
    | ok q =>
      cases hw' : k.walk fs' maxLinks p cs.dropLast with
      | error e => simp [hw',bind,Except.bind] at h'
      | ok q' =>
        obtain rfl := walk_agree hff hw hw'
        simp only [hw,hw',bind,Except.bind] at h h'
        cases hn : fs.node q with
        | none => simp [hn] at h
        | some n =>
          cases hn' : fs'.node q with
          | none => simp [hn'] at h'
          | some n' =>
            obtain rfl := hff _ _ _ hn hn'
            simp only [hn,hn'] at h h'
            exact Except.ok.inj (h.symm.trans h')

theorem glance_agree (hff : ∀ p n n', fs.node p = some n → fs'.node p = some n' → n = n') {s : Str}
    {q q' : Path} (h : k.glance fs s = .ok q) (h' : k.glance fs' s = .ok q') : q = q' := by
  unfold glance follow spot at h h'
  split_ifs at h h' with hs he
  · exact walk_agree hff h h'
  · simp [Except.map] at h
  · cases hsp : k.spotFrom fs (k.start (cstr s)) (components (cstr s)) with
    | error e => simp [hsp,Except.map] at h
    | ok sp =>
      cases hsp' : k.spotFrom fs' (k.start (cstr s)) (components (cstr s)) with
      | error e => simp [hsp',Except.map] at h'
      | ok sp' =>
        obtain rfl := spotFrom_agree hff hsp hsp'
        simp only [hsp,hsp'] at h h'
        exact Except.ok.inj (h.symm.trans h')

/-! ### The last step -/

theorem along_has {again : Path → List Name → Except Errno Path}
    (hagain : ∀ p cs q, fs.has p → again p cs = .ok q → fs.has q) {cur q : Path} {cs : List Name}
    (hcur : fs.has cur) (h : k.along fs again cur cs = .ok q) : fs.has q := by
  induction cs generalizing cur with
  | nil => simp only [along,Except.ok.injEq] at h; rwa [← h]
  | cons c cs ih =>
    unfold along at h
    cases hn : fs.node cur with
    | none => simp [hn] at h
    | some n =>
      cases n with
      | file content m => simp [hn] at h
      | link t => simp [hn] at h
      | dir m =>
        simp only [hn] at h
        split_ifs at h
        · exact ih hcur h
        · exact ih hcur h
        · exact ih (FileSystem.has_of_above hcur (List.dropLast_prefix _)) h
        · cases hc : fs.node (cur ++ [c]) with
          | none => simp [hc] at h
          | some n' =>
            have hhas : fs.has (cur ++ [c]) := FileSystem.has_iff.mpr ⟨_,hc⟩
            cases n' with
            | file content m' => simp only [hc] at h; exact ih hhas h
            | dir m' => simp only [hc] at h; exact ih hhas h
            | link t =>
              simp only [hc] at h
              refine hagain _ _ _ ?_ h
              split_ifs
              · exact fs.has_root
              · exact hcur

theorem walk_has {n : Nat} {cur q : Path} {cs : List Name} (hcur : fs.has cur)
    (h : k.walk fs n cur cs = .ok q) : fs.has q := by
  induction n generalizing cur cs q with
  | zero => exact along_has (fun _ _ _ _ h => by simp at h) hcur h
  | succ n ih => exact along_has (fun _ _ _ hp h => ih hp h) hcur h

theorem has_of_walk_cons {n : Nat} {cur q : Path} {c : Name} {cs : List Name}
    (h : k.walk fs n cur (c :: cs) = .ok q) : fs.has cur := by
  have hstep : ∀ again, k.along fs again cur (c :: cs) = .ok q → fs.has cur := by
    intro again h
    unfold along at h
    cases hn : fs.node cur with
    | none => simp [hn] at h
    | some nd => exact FileSystem.has_iff.mpr ⟨nd,hn⟩
  cases n with
  | zero => exact hstep _ h
  | succ n => exact hstep _ h

theorem follow_has {s : Str} {q : Path} (h : k.follow fs s = .ok q) : fs.has q := by
  unfold follow at h
  split_ifs at h with he
  have hnames : names (cstr s) ≠ [] := by
    unfold names
    split
    · simp
    · rename_i hsl
      simpa using components_ne_nil_of_end he hsl
  obtain ⟨c,cs,hcs⟩ := List.exists_cons_of_ne_nil hnames
  rw [hcs] at h
  exact walk_has (has_of_walk_cons h) h

/-- Walks split at every name: what is after it is walked from where the rest led. -/
theorem along_append {again : Path → List Name → Except Errno Path} {ds : List Name} {q : Path}
    {Q : Path → Prop} (hagain : ∀ p cs, again p (cs ++ ds) = .ok q → ∃ r, again p cs = .ok r ∧ Q r)
    (hstop : ∀ p, k.along fs again p ds = .ok q → Q p) {cur : Path} {cs : List Name}
    (h : k.along fs again cur (cs ++ ds) = .ok q) : ∃ r, k.along fs again cur cs = .ok r ∧ Q r := by
  induction cs generalizing cur with
  | nil => exact ⟨cur,rfl,hstop _ h⟩
  | cons c cs ih =>
    rw [List.cons_append] at h
    unfold along at h ⊢
    cases hn : fs.node cur with
    | none => simp [hn] at h
    | some n =>
      cases n with
      | file content m => simp [hn] at h
      | link t => simp [hn] at h
      | dir m =>
        simp only [hn] at h ⊢
        split_ifs at h ⊢
        · exact ih h
        · exact ih h
        · exact ih h
        · cases hc : fs.node (cur ++ [c]) with
          | none => simp [hc] at h
          | some n' =>
            cases n' with
            | file content m' => simp only [hc] at h ⊢; exact ih h
            | dir m' => simp only [hc] at h ⊢; exact ih h
            | link t =>
              simp only [hc,← List.append_assoc] at h ⊢
              exact hagain _ _ h

theorem walk_append_le {n : Nat} {cur q : Path} {cs ds : List Name}
    (h : k.walk fs n cur (cs ++ ds) = .ok q) :
    ∃ r, k.walk fs n cur cs = .ok r ∧ ∃ m, m ≤ n ∧ k.walk fs m r ds = .ok q := by
  induction n generalizing cur cs q with
  | zero => exact along_append (fun _ _ h => by simp at h) (fun _ h => ⟨0,Nat.le_refl 0,h⟩) h
  | succ n ih =>
    refine along_append (fun p es hr => ?_) (fun _ h => ⟨n+1,Nat.le_refl _,h⟩) h
    obtain ⟨r,hfirst,m,hle,hrest⟩ := ih hr
    exact ⟨r,hfirst,m,Nat.le_succ_of_le hle,hrest⟩

theorem walk_append {n : Nat} {cur q : Path} {cs ds : List Name}
    (h : k.walk fs n cur (cs ++ ds) = .ok q) :
    ∃ r m, k.walk fs n cur cs = .ok r ∧ k.walk fs m r ds = .ok q := by
  obtain ⟨r,hfirst,m,_,hrest⟩ := walk_append_le h
  exact ⟨r,m,hfirst,hrest⟩

theorem walk_snoc {n : Nat} {cur p q : Path} {cs : List Name} {c : Name}
    (h : k.walk fs n cur cs = .ok p)
    (hstep : ∀ again, k.along fs again p [c] = .ok q) : k.walk fs n cur (cs ++ [c]) = .ok q := by
  have key : ∀ again, (∀ p' es, again p' es = .ok p → again p' (es ++ [c]) = .ok q) →
      ∀ cur cs, k.along fs again cur cs = .ok p → k.along fs again cur (cs ++ [c]) = .ok q := by
    intro again hagain cur cs h
    induction cs generalizing cur with
    | nil =>
      obtain rfl : cur = p := by simpa [along] using h
      exact hstep again
    | cons d cs ih =>
      rw [List.cons_append]
      unfold along at h ⊢
      cases hn : fs.node cur with
      | none => simp [hn] at h
      | some n =>
        cases n with
        | file content m => simp [hn] at h
        | link t => simp [hn] at h
        | dir m =>
          simp only [hn] at h ⊢
          split_ifs at h ⊢
          · exact ih _ h
          · exact ih _ h
          · exact ih _ h
          · cases hc : fs.node (cur ++ [d]) with
            | none => simp [hc] at h
            | some n' =>
              cases n' with
              | file content m' => simp only [hc] at h ⊢; exact ih _ h
              | dir m' => simp only [hc] at h ⊢; exact ih _ h
              | link t =>
                simp only [hc,← List.append_assoc] at h ⊢
                exact hagain _ _ h
  induction n generalizing cur cs with
  | zero => exact key _ (fun _ _ h => by simp at h) _ _ h
  | succ n ih => exact key _ (fun _ _ h => ih h) _ _ h

theorem along_name {again : Path → List Name → Except Errno Path} {p : Path} {c : Name} {m : Nat}
    {n : Node} (hp : fs.node p = some (.dir m)) (hc : ProperName c) (hm : k.permits p c m)
    (hn : fs.node (p ++ [c]) = some n) (hl : ∀ t, n ≠ .link t) :
    k.along fs again p [c] = .ok (p ++ [c]) := by
  obtain ⟨hne,_,_,hdot,hdotdot⟩ := hc
  cases n with
  | link t => exact absurd rfl (hl t)
  | file content m' => simp [along,hp,hne,hm,hdot,hdotdot,hn]
  | dir m' => simp [along,hp,hne,hm,hdot,hdotdot,hn]

theorem along_nil_name {again : Path → List Name → Except Errno Path} {p : Path}
    (hp : fs.isDir p) : k.along fs again p [[]] = .ok p := by
  obtain ⟨m,hm⟩ := FileSystem.isDir_iff.mp hp
  simp [along,hm]

/-- A path that ends at a directory leads to the same place with and without slashes after it. -/
theorem walk_components {n : Nat} {cur p : Path} {s : Str}
    (h : k.walk fs n cur (names s) = .ok p) : k.walk fs n cur (components s) = .ok p := by
  unfold names at h
  split_ifs at h
  · obtain ⟨r,m,hr,hm⟩ := walk_append h
    have hrp : r = p := by
      have hstep : ∀ again, k.along fs again r [[]] = .ok p → r = p := by
        intro again ha
        unfold along at ha
        cases hn : fs.node r with
        | none => simp [hn] at ha
        | some nd => cases nd <;> simp [hn,along] at ha; exact ha
      cases m with
      | zero => exact hstep _ hm
      | succ m => exact hstep _ hm
    rwa [← hrp]
  · simpa using h

theorem spotFrom_name {from_ p : Path} {cs : List Name} {c : Name}
    (h : k.spotFrom fs from_ cs = .ok (.name p c)) :
    (∃ m, fs.node p = some (.dir m) ∧ k.permits p c m) ∧ c ≠ dotName ∧ c ≠ dotdotName ∧
      cs.getLast? = some c ∧ k.walk fs maxLinks from_ cs.dropLast = .ok p := by
  unfold spotFrom at h
  cases hl : cs.getLast? with
  | none => simp [hl] at h
  | some d =>
    simp only [hl] at h
    cases hw : k.walk fs maxLinks from_ cs.dropLast with
    | error e => simp [hw,bind,Except.bind] at h
    | ok q =>
      simp only [hw,bind,Except.bind] at h
      cases hn : fs.node q with
      | none => simp [hn] at h
      | some n =>
        cases n with
        | file content m => simp [hn] at h
        | link t => simp [hn] at h
        | dir m =>
          simp only [hn] at h
          split_ifs at h with hp hd hdd
          · simp at h
          · simp at h
          · simp only [Except.ok.injEq,Spot.name.injEq] at h
            obtain ⟨rfl,rfl⟩ := h
            exact ⟨⟨m,hn,by simpa using hp⟩,hd,hdd,rfl,rfl⟩

theorem spotFrom_self {from_ p : Path} {cs : List Name}
    (h : k.spotFrom fs from_ cs = .ok (.self p)) : k.walk fs maxLinks from_ cs = .ok p := by
  unfold spotFrom at h
  cases hl : cs.getLast? with
  | none =>
    obtain rfl : cs = [] := by simpa using hl
    simpa [walk,along,maxLinks] using h
  | some d =>
    obtain ⟨ds,rfl⟩ := List.getLast?_eq_some_iff.mp hl
    simp only [hl,List.dropLast_concat] at h
    cases hw : k.walk fs maxLinks from_ ds with
    | error e => simp [hw,bind,Except.bind] at h
    | ok q =>
      simp only [hw,bind,Except.bind] at h
      refine walk_snoc hw fun again => ?_
      cases hn : fs.node q with
      | none => simp [hn] at h
      | some n =>
        cases n with
        | file content m => simp [hn] at h
        | link t => simp [hn] at h
        | dir m =>
          simp only [hn] at h
          split_ifs at h with hp hd hdd
          · obtain rfl : q = p := by simpa using h
            subst hd
            simpa [along,hn,dotName] using hp
          · obtain rfl : q.dropLast = p := by simpa using h
            subst hdd
            simpa [along,hn,dotName,dotdotName] using hp
          · simp at h

theorem spot_of_glance_free {s : Str} {q : Path} (h : k.glance fs s = .ok q) (hq : ¬ fs.has q) :
    ∃ p c, k.spot fs s = .ok (.name p c) ∧ q = p ++ [c] ∧ ¬ endsWithSlash (cstr s) := by
  unfold glance at h
  split_ifs at h with hsl
  · exact absurd (follow_has h) hq
  cases hsp : k.spot fs s with
  | error e => simp [hsp,Except.map] at h
  | ok sp =>
    simp only [hsp,Except.map,Except.ok.injEq] at h
    cases sp with
    | name p c => exact ⟨p,c,rfl,h.symm,hsl⟩
    | self p =>
      obtain rfl : p = q := h
      unfold spot at hsp
      split_ifs at hsp with he
      have hcs := components_ne_nil_of_end he hsl
      obtain ⟨c,cs,hcs⟩ := List.exists_cons_of_ne_nil hcs
      have hw := spotFrom_self hsp
      rw [hcs] at hw
      exact absurd (walk_has (has_of_walk_cons hw) hw) hq

theorem spotFrom_of_walk {from_ q : Path} {cs : List Name} (hfrom : fs.has from_)
    (hcs : ∀ c ∈ cs, c ≠ []) (h : k.walk fs maxLinks from_ cs = .ok q) :
    ∃ sp, k.spotFrom fs from_ cs = .ok sp ∧ fs.has sp.place := by
  cases hl : cs.getLast? with
  | none => exact ⟨.self from_,by simp [spotFrom,hl],hfrom⟩
  | some d =>
    obtain ⟨ds,rfl⟩ := List.getLast?_eq_some_iff.mp hl
    have hd : d ≠ [] := hcs d (by simp)
    obtain ⟨r,j,hr,hj⟩ := walk_append h
    have hlast : ∃ again, k.along fs again r [d] = .ok q := by
      cases j with
      | zero => exact ⟨_,hj⟩
      | succ j => exact ⟨_,hj⟩
    obtain ⟨again,hlast⟩ := hlast
    unfold spotFrom
    simp only [List.getLast?_append,List.getLast?_singleton,Option.some_or,List.dropLast_concat]
    unfold along at hlast
    cases hn : fs.node r with
    | none => simp [hn] at hlast
    | some n =>
      have hhas : fs.has r := FileSystem.has_iff.mpr ⟨n,hn⟩
      cases n with
      | file content m => simp [hn] at hlast
      | link t => simp [hn] at hlast
      | dir m =>
        simp only [hn,if_neg hd] at hlast
        simp only [hr,bind,Except.bind,hn]
        split_ifs at hlast ⊢
        · exact ⟨_,rfl,hhas⟩
        · exact ⟨_,rfl,FileSystem.has_of_above hhas (List.dropLast_prefix _)⟩
        · refine ⟨_,rfl,?_⟩
          cases hc : fs.node (r ++ [d]) with
          | none => simp [hc] at hlast
          | some n' => exact FileSystem.has_iff.mpr ⟨n',hc⟩

theorem properName_of_component {s : Str} {c : Name} (hs : NulFree s) (hc : c ∈ components s)
    (hd : c ≠ dotName) (hdd : c ≠ dotdotName) : ProperName c := by
  obtain ⟨hne,hslash⟩ := components_wellFormed hc
  exact ⟨hne,hslash,fun h0 => hs (mem_of_mem_components hc h0),hd,hdd⟩

/-- A name at the end of a path stands in a directory and can be stored there. -/
theorem spot_name {s : Str} {p : Path} {c : Name} (h : k.spot fs s = .ok (.name p c)) :
    fs.isDir p ∧ ProperName c := by
  unfold spot at h
  split_ifs at h
  obtain ⟨⟨m,hm,_⟩,hd,hdd,hl,_⟩ := spotFrom_name h
  exact ⟨FileSystem.isDir_iff.mpr ⟨m,hm⟩,
    properName_of_component (nulFree_cstr s) (List.mem_of_getLast? hl) hd hdd⟩

theorem spot_child {x y : Str} {p : Path} {c : Name} {m : Nat} (hx : NulFree x) (hc : ProperName c)
    (hy : y = x ++ c ∧ endsWithSlash x ∨ y = x ++ slash :: c) (h : k.follow fs x = .ok p)
    (hp : fs.node p = some (.dir m)) :
    k.spot fs y = if k.permits p c m then .ok (.name p c) else .error .EACCES := by
  have hxne : x ≠ [] := by
    rintro rfl
    simp [follow,cstr] at h
  rw [follow,cstr_of_nulFree hx,if_neg hxne] at h
  have hynul : NulFree y := by
    rcases hy with ⟨rfl,_⟩ | rfl
    · simpa [NulFree] using ⟨hx,hc.2.2.1⟩
    · simpa [NulFree,slash] using ⟨hx,hc.2.2.1⟩
  have hycomp : components y = components x ++ [c] := by
    rcases hy with ⟨rfl,hx⟩ | rfl
    · obtain ⟨x',rfl⟩ := List.getLast?_eq_some_iff.mp hx
      have e := components_append_slash x' c
      have e' := components_append_slash x' []
      simp only [List.append_assoc,List.singleton_append] at e e' ⊢
      rw [e,e',hc.components]; simp
    · exact components_concat_name x hc
  have hyabs : absolute y ↔ absolute x := by
    unfold absolute
    rcases hy with ⟨rfl,_⟩ | rfl <;> rw [List.head?_append_of_ne_nil _ hxne]
  have hystart : k.start y = k.start x := by simp only [start,hyabs]
  have hyne : y ≠ [] := by
    rcases hy with ⟨rfl,_⟩ | rfl <;> simp [hxne]
  rw [spot,cstr_of_nulFree hynul,if_neg hyne,hystart,spotFrom,hycomp]
  simp only [List.getLast?_append,List.getLast?_singleton,Option.some_or,List.dropLast_concat]
  rw [walk_components h]
  simp only [bind,Except.bind,hp,hc.2.2.2.1,hc.2.2.2.2,if_false]
  cases k.permits p c m <;> simp

theorem glance_child {x y : Str} {p : Path} {c : Name} {m : Nat} (hx : NulFree x)
    (hc : ProperName c) (hy : y = x ++ c ∧ endsWithSlash x ∨ y = x ++ slash :: c)
    (h : k.follow fs x = .ok p) (hp : fs.node p = some (.dir m)) :
    k.glance fs y = if k.permits p c m then .ok (p ++ [c]) else .error .EACCES := by
  have hynul : NulFree y := by
    rcases hy with ⟨rfl,_⟩ | rfl
    · simpa [NulFree] using ⟨hx,hc.2.2.1⟩
    · simpa [NulFree,slash] using ⟨hx,hc.2.2.1⟩
  have hend : ¬ endsWithSlash y := by
    have hlast : y.getLast? = c.getLast? := by
      rcases hy with ⟨rfl,_⟩ | rfl
      · rw [List.getLast?_append_of_ne_nil _ hc.1]
      · rw [List.getLast?_append_of_ne_nil _ (by simp),List.getLast?_cons_of_ne_nil hc.1]
    intro he
    rw [endsWithSlash,hlast] at he
    exact hc.2.1 (List.mem_of_getLast? he)
  rw [glance,cstr_of_nulFree hynul,if_neg hend,spot_child hx hc hy h hp]
  split <;> rfl

theorem follow_of_glance {s : Str} {p : Path} {n : Node} (h : k.glance fs s = .ok p)
    (hn : fs.node p = some n) (hl : ∀ t, n ≠ .link t) : k.follow fs s = .ok p := by
  unfold glance at h
  split_ifs at h with hs
  · exact h
  · unfold spot at h
    unfold follow
    split_ifs at h ⊢ with he
    · simp [Except.map] at h
    have hnames : names (cstr s) = components (cstr s) := by simp [names,hs]
    rw [hnames]
    generalize hst : k.start (cstr s) = st at *
    cases hsp : k.spotFrom fs st (components (cstr s)) with
    | error e => simp [hsp,Except.map] at h
    | ok sp =>
      simp only [hsp,Except.map,Except.ok.injEq] at h
      cases sp with
      | self q => subst h; exact spotFrom_self hsp
      | name q c =>
        obtain ⟨⟨m,hm,hperm⟩,hd,hdd,hlast,hw⟩ := spotFrom_name hsp
        have hproper := properName_of_component (nulFree_cstr s) (List.mem_of_getLast? hlast) hd hdd
        obtain ⟨cs,hcs⟩ := List.getLast?_eq_some_iff.mp hlast
        rw [hcs] at hw ⊢
        subst h
        simp only [Spot.place] at hn ⊢
        rw [List.dropLast_concat] at hw
        exact walk_snoc hw fun again => along_name hm hproper hperm hn hl

/-- A directory is found at its spot with and without slashes after its name. -/
theorem glance_of_spot_dir {s : Str} {p : Path} {c : Name} (h : k.spot fs s = .ok (.name p c))
    (hd : ∃ m, fs.node (p ++ [c]) = some (.dir m)) (hsl : endsWithSlash (cstr s)) :
    k.glance fs s = .ok (p ++ [c]) := by
  obtain ⟨m',hm'⟩ := hd
  obtain ⟨_,hc⟩ := spot_name h
  unfold spot at h
  split_ifs at h with he
  obtain ⟨⟨m,hm,hperm⟩,hd,hdd,hlast,hw⟩ := spotFrom_name h
  obtain ⟨cs,hcs⟩ := List.getLast?_eq_some_iff.mp hlast
  have hnames : names (cstr s) = cs ++ [c] ++ [[]] := by simp [names,hsl,hcs]
  rw [glance,if_pos hsl,follow,if_neg he,hnames]
  rw [hcs,List.dropLast_concat] at hw
  have hstep := walk_snoc hw fun again => along_name hm hc hperm hm' (by simp)
  exact walk_snoc hstep fun again => along_nil_name (FileSystem.isDir_iff.mpr ⟨m',hm'⟩)

end Kernel
end Posix
