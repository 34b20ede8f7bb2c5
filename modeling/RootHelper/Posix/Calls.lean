import RootHelper.Control.Programs
import RootHelper.Posix.Walk

/-!
The system calls one process makes on a file system, one at a time. Each is logged with the change
it made. A call may be refused for reasons the file system does not show (permissions, a full disk,
an I/O error); looking up metadata fails only where the walk to the place does.
-/

set_option autoImplicit false

namespace Posix
open Control

/-- What the process cannot choose: which calls are refused, in which order a directory is read,
and how much one transfer moves. Each is asked with the number of the call. -/
structure System extends Kernel where
  refuse : Nat → Option Errno
  order : Nat → List Name → List Name
  order_perm : ∀ t l, (order t l).Perm l
  transfer : Nat → Int
  dirSize : Path → Nat

inductive Call where
  | lstat (s : Str) | stat (s : Str) | readlink (s : Str)
  | opendir (s : Str) | openRead (s : Str)
  | openCreate (s : Str) (mode : Nat) | openExcl (s : Str) (mode : Nat)
  | mkdir (s : Str) (mode : Nat)
  | remove (s : Str) | unlink (s : Str) | rename (s t : Str)
  | symlink (target s : Str) | link (s t : Str)
  | read (p : Path) | write (p : Path) (c : Name) | fchmod (p : Path) (c : Name) (mode : Nat)
  deriving DecidableEq

structure Event where
  call : Call
  change : Option Change
  deriving DecidableEq

def Event.touches (e : Event) (r : Path) : Prop := ∃ c, e.change = some c ∧ c.touches r

def Event.apply (e : Event) (fs : FileSystem) : FileSystem :=
  match e.change with
  | some c => c.apply fs
  | none => fs

structure Disk where
  fs : FileSystem
  log : List Event
  tick : Nat
  errno : Nat

def Disk.done (d : Disk) (e : Event) : Disk :=
  { d with fs := e.apply d.fs, log := d.log ++ [e], tick := d.tick+1 }

def Disk.failed (d : Disk) (c : Call) (e : Errno) : Disk :=
  { d with log := d.log ++ [⟨c,none⟩], tick := d.tick+1, errno := e.code }

/-! ### What each call does

Every effect gives the call's result together with the change it makes. -/

namespace Kernel

variable (k : Kernel)

def nodeAt (fs : FileSystem) (place : Except Errno Path) : Except Errno Node := do
  let p ← place
  match fs.node p with
  | some n => .ok n
  | none => .error .ENOENT

def lstatEffect (s : Str) (fs : FileSystem) : Except Errno (Node × Option Change) := do
  let n ← nodeAt fs (k.glance fs s)
  .ok (n,none)

def statEffect (s : Str) (fs : FileSystem) : Except Errno (Node × Option Change) := do
  let n ← nodeAt fs (k.follow fs s)
  .ok (n,none)

def readlinkEffect (s : Str) (fs : FileSystem) : Except Errno (Str × Option Change) := do
  match ← nodeAt fs (k.glance fs s) with
  | .link t => .ok (t,none)
  | _ => .error .EINVAL

/-- The names of a directory; the two dot names are left out. -/
def opendirEffect (order : List Name → List Name) (s : Str) (fs : FileSystem) :
    Except Errno (List Name × Option Change) := do
  let p ← k.follow fs s
  if fs.isDir p then .ok (order (fs.children p),none) else .error .ENOTDIR

def openReadEffect (s : Str) (fs : FileSystem) : Except Errno (Path × Option Change) := do
  let p ← k.follow fs s
  if fs.has p then .ok (p,none) else .error .ENOENT

/-- `O_CREAT` without `O_EXCL` and without `O_TRUNC`: an existing file is opened as it is. -/
def openCreateEffect (s : Str) (mode : Nat) (fs : FileSystem) :
    Except Errno ((Path × Name) × Option Change) :=
  if cstr s = [] then .error .ENOENT
  else if endsWithSlash (cstr s) then .error .EISDIR
  else do
    let (p,c) ← k.createSpot fs maxLinks (k.start (cstr s)) (components (cstr s))
    if fs.has (p ++ [c]) then .ok ((p,c),none)
    else .ok ((p,c),some (.put p c (.file [] (k.masked mode))))

/-- A new node at a name that is free. -/
def makeEffect (s : Str) (n : Node) (fs : FileSystem) :
    Except Errno ((Path × Name) × Option Change) := do
  match ← k.spot fs s with
  | .self _ => .error .EEXIST
  | .name p c =>
    if fs.has (p ++ [c]) then .error .EEXIST
    else if endsWithSlash (cstr s) ∧ n.isDir = false then .error .ENOENT
    else .ok ((p,c),some (.put p c n))

def removeEffect (s : Str) (fs : FileSystem) : Except Errno (Unit × Option Change) := do
  match ← k.spot fs s with
  | .self _ => .error .EBUSY
  | .name p c =>
    match fs.node (p ++ [c]) with
    | none => .error .ENOENT
    | some (.dir _) =>
      if fs.children (p ++ [c]) = [] then .ok ((),some (.erase (p ++ [c])))
      else .error .ENOTEMPTY
    | some _ =>
      if endsWithSlash (cstr s) then .error .ENOTDIR
      else .ok ((),some (.erase (p ++ [c])))

def unlinkEffect (s : Str) (fs : FileSystem) : Except Errno (Unit × Option Change) := do
  match ← nodeAt fs (k.glance fs s) with
  | .dir _ => .error .EISDIR
  | _ => k.removeEffect s fs

def renameEffect (s t : Str) (fs : FileSystem) : Except Errno (Unit × Option Change) := do
  match ← k.spot fs s, ← k.spot fs t with
  | .name p c, .name q d =>
    let a := p ++ [c]
    let b := q ++ [d]
    if fs.has a = false then .error .ENOENT
    else if (endsWithSlash (cstr s) ∨ endsWithSlash (cstr t)) ∧ fs.isDir a = false then
      .error .ENOTDIR
    else if a = b then .ok ((),none)
    else if a <+: b then .error .EINVAL
    else if fs.has b ∧ fs.isDir a ∧ fs.isDir b = false then .error .ENOTDIR
    else if fs.isDir b ∧ fs.isDir a = false then .error .EISDIR
    else if fs.children b ≠ [] then .error .ENOTEMPTY
    else .ok ((),some (.move a q d))
  | _, _ => .error .EBUSY

/-- A second name for what is at `s`; a link at the end of `s` is not followed. -/
def linkEffect (s t : Str) (fs : FileSystem) :
    Except Errno ((Path × Name) × Option Change) := do
  match ← nodeAt fs (k.glance fs s) with
  | .dir _ => .error .EPERM
  | n => k.makeEffect t n fs

/-- `content` with `bytes` written at `off`; a gap is filled with zeros. -/
def overlay (content : Str) (off : Nat) (bytes : Str) : Str :=
  content.take off ++ List.replicate (off - content.length) 0 ++ bytes ++
    content.drop (off + bytes.length)

def EIO : Errno := .other 5

/-- At most `count` bytes of an open file, of which only the first `amount` come. -/
def readEffect (amount : Int) (p : Path) (off count : Nat) (fs : FileSystem) :
    Except Errno (Str × Option Change) :=
  match fs.node p with
  | some (.file content _) =>
    if amount < 0 then .error EIO
    else .ok (((content.drop off).take count).take amount.toNat,none)
  | some (.dir _) => .error .EISDIR
  | _ => .error .EINVAL

/-- An open file changes where it was opened. -/
def fileEffect (p : Path) (c : Name) (f : Str → Nat → Node) (fs : FileSystem) :
    Except Errno (Unit × Option Change) :=
  match fs.node (p ++ [c]) with
  | some (.file content mode) => .ok ((),some (.put p c (f content mode)))
  | _ => .error .EINVAL

/-- The first `amount` of the bytes are written, and counted. -/
def writeEffect (amount : Int) (p : Path) (c : Name) (off : Nat) (bytes : Str)
    (fs : FileSystem) : Except Errno (Nat × Option Change) :=
  if amount < 0 then .error EIO
  else if bytes.take amount.toNat = [] then .ok (0,none)
  else do
    let (_,ch) ← fileEffect p c (fun content mode =>
      .file (overlay content off (bytes.take amount.toNat)) mode) fs
    .ok ((bytes.take amount.toNat).length,ch)

/-- From one open file to another, without the bytes passing through the process. -/
def sendfileEffect (amount : Int) (input : Path) (p : Path) (c : Name) (inOff outOff count : Nat)
    (fs : FileSystem) : Except Errno (Nat × Option Change) := do
  let (bytes,_) ← readEffect amount input inOff count fs
  writeEffect bytes.length p c outOff bytes fs

section Effects

variable {k} {fs : FileSystem} {s t : Str} {ch : Option Change}

theorem nodeAt_ok {place : Except Errno Path} {n : Node} (h : nodeAt fs place = .ok n) :
    ∃ p, place = .ok p ∧ fs.node p = some n := by
  cases place with
  | error e => simp [nodeAt,bind,Except.bind] at h
  | ok p =>
    simp only [nodeAt,bind,Except.bind] at h
    cases hn : fs.node p with
    | none => simp [hn] at h
    | some n' =>
      simp only [hn,Except.ok.injEq] at h
      exact ⟨p,rfl,by rw [← h]; exact hn⟩

theorem makeEffect_ok {n : Node} {p : Path} {c : Name}
    (h : k.makeEffect s n fs = .ok ((p,c),ch)) :
    ch = some (.put p c n) ∧ k.spot fs s = .ok (.name p c) ∧ ¬ fs.has (p ++ [c]) := by
  unfold makeEffect at h
  cases hs : k.spot fs s with
  | error e => simp [hs,bind,Except.bind] at h
  | ok sp =>
    simp only [hs,bind,Except.bind] at h
    cases sp with
    | self q => simp at h
    | name q d =>
      simp only at h
      split_ifs at h with hh
      simp only [Except.ok.injEq,Prod.mk.injEq] at h
      obtain ⟨⟨rfl,rfl⟩,rfl⟩ := h
      exact ⟨rfl,rfl,hh⟩

theorem makeEffect_taken {n : Node} {q : Path} (hs : cstr s ≠ []) (hstart : fs.has (k.start (cstr s)))
    (h : k.walk fs maxLinks (k.start (cstr s)) (components (cstr s)) = .ok q) :
    k.makeEffect s n fs = .error .EEXIST := by
  obtain ⟨sp,hsp,hhas⟩ := spotFrom_of_walk hstart (fun c hc => (components_wellFormed hc).1) h
  have hspot : k.spot fs s = .ok sp := by rw [spot,if_neg hs,hsp]
  unfold makeEffect
  simp only [hspot,bind,Except.bind]
  cases sp with
  | self p => rfl
  | name p c => exact if_pos hhas

theorem makeEffect_free {n : Node} {p : Path} {c : Name} (h : k.spot fs s = .ok (.name p c))
    (hfree : ¬ fs.has (p ++ [c])) (hsl : ¬ endsWithSlash (cstr s)) :
    k.makeEffect s n fs = .ok ((p,c),some (.put p c n)) := by
  unfold makeEffect
  simp only [h,bind,Except.bind]
  rw [if_neg hfree,if_neg (fun hand => hsl hand.1)]

theorem removeEffect_ok {u : Unit} (h : k.removeEffect s fs = .ok (u,ch)) :
    ∃ p c, k.spot fs s = .ok (.name p c) ∧ ch = some (.erase (p ++ [c])) ∧ fs.has (p ++ [c]) ∧
      fs.children (p ++ [c]) = [] := by
  unfold removeEffect at h
  cases hs : k.spot fs s with
  | error e => simp [hs,bind,Except.bind] at h
  | ok sp =>
    simp only [hs,bind,Except.bind] at h
    cases sp with
    | self q => simp at h
    | name p c =>
      refine ⟨p,c,rfl,?_⟩
      cases hn : fs.node (p ++ [c]) with
      | none => simp [hn] at h
      | some n =>
        have hleaf : n.isDir = false → fs.children (p ++ [c]) = [] := fun hd =>
          FileSystem.children_of_not_isDir (by simp [FileSystem.isDir,hn,hd])
        cases n with
        | dir m =>
          simp only [hn] at h
          split_ifs at h with he
          simp only [Except.ok.injEq,Prod.mk.injEq] at h
          exact ⟨h.2.symm,FileSystem.has_iff.mpr ⟨_,hn⟩,he⟩
        | file content m =>
          simp only [hn] at h
          split_ifs at h
          simp only [Except.ok.injEq,Prod.mk.injEq] at h
          exact ⟨h.2.symm,FileSystem.has_iff.mpr ⟨_,hn⟩,hleaf rfl⟩
        | link t =>
          simp only [hn] at h
          split_ifs at h
          simp only [Except.ok.injEq,Prod.mk.injEq] at h
          exact ⟨h.2.symm,FileSystem.has_iff.mpr ⟨_,hn⟩,hleaf rfl⟩

/-- A rename that is done either names one place twice or moves what is at the first to the
second; there it replaces nothing, something that is not a directory, or an empty directory, by
its like. -/
theorem renameEffect_ok {u : Unit} (h : k.renameEffect s t fs = .ok (u,ch)) :
    ∃ p c q d, k.spot fs s = .ok (.name p c) ∧ k.spot fs t = .ok (.name q d) ∧
      fs.has (p ++ [c]) ∧ (endsWithSlash (cstr s) ∨ endsWithSlash (cstr t) → fs.isDir (p ++ [c])) ∧
      (p ++ [c] = q ++ [d] ∧ ch = none ∨
        ch = some (.move (p ++ [c]) q d) ∧ fs.CanMove (p ++ [c]) q d ∧
          (fs.has (q ++ [d]) → (fs.isDir (p ++ [c]) ↔ fs.isDir (q ++ [d])))) := by
  unfold renameEffect at h
  cases hs : k.spot fs s with
  | error e => simp [hs,bind,Except.bind] at h
  | ok sp =>
    cases ht : k.spot fs t with
    | error e => simp [hs,ht,bind,Except.bind] at h
    | ok tp =>
      simp only [hs,ht,bind,Except.bind] at h
      cases sp with
      | self p => simp at h
      | name p c =>
        cases tp with
        | self q => simp at h
        | name q d =>
          refine ⟨p,c,q,d,rfl,rfl,?_⟩
          obtain ⟨hq,hd⟩ := spot_name ht
          simp only at h
          split_ifs at h with h1 h2 h3 h4 h5 h6 h7
          all_goals
            have hhas : fs.has (p ++ [c]) := by simpa using h1
            have hslash : endsWithSlash (cstr s) ∨ endsWithSlash (cstr t) → fs.isDir (p ++ [c]) := by
              intro hsl
              by_contra hda
              exact h2 ⟨hsl,by simpa using hda⟩
            simp only [Except.ok.injEq,Prod.mk.injEq] at h
            refine ⟨hhas,hslash,?_⟩
          · exact .inl ⟨h3,h.2.symm⟩
          · refine .inr ⟨h.2.symm,⟨by simp,hhas,hq,hd,h4,by simpa using h7⟩,fun hb => ?_⟩
            cases hda : fs.isDir (p ++ [c]) <;> cases hdb : fs.isDir (q ++ [d]) <;> simp_all

theorem fileEffect_ok {p : Path} {c : Name} {f : Str → Nat → Node} {u : Unit}
    (h : fileEffect p c f fs = .ok (u,ch)) :
    ∃ content mode, fs.node (p ++ [c]) = some (.file content mode) ∧
      ch = some (.put p c (f content mode)) := by
  unfold fileEffect at h
  split at h
  · rename_i content mode hn
    simp only [Except.ok.injEq,Prod.mk.injEq] at h
    exact ⟨content,mode,hn,h.2.symm⟩
  · simp at h

/-- A write moves the front of the buffer, unless it moves nothing. -/
theorem writeEffect_eq {amount : Int} {p : Path} {c : Name} {off : Nat} {buf written : Str} {m : Nat}
     (h : fs.node (p ++ [c]) = some (.file written m)) :
    buf.take amount.toNat = [] ∧ (writeEffect amount p c off buf fs = .ok (0,none) ∨
        ∃ e, writeEffect amount p c off buf fs = .error e) ∨
      buf.take amount.toNat ≠ [] ∧ writeEffect amount p c off buf fs =
        .ok ((buf.take amount.toNat).length,
          some (.put p c (.file (overlay written off (buf.take amount.toNat)) m))) := by
  unfold writeEffect
  split_ifs with ha hb
  · have hzero : amount.toNat = 0 := by omega
    exact .inl ⟨by rw [hzero,List.take_zero],.inr ⟨_,rfl⟩⟩
  · exact .inl ⟨hb,.inl rfl⟩
  · refine .inr ⟨hb,?_⟩
    simp only [fileEffect,h,bind,Except.bind]

theorem overlay_at_end (written piece : Str) :
    overlay written written.length piece = written ++ piece := by
  simp [overlay]

theorem createSpot_ok {n : Nat} {q p : Path} {c : Name} (hs : NulFree s)
    (h : k.createSpot fs n q (components s) = .ok (p,c)) :
    fs.isDir p ∧ ProperName c ∧
      ∀ nd, fs.node (p ++ [c]) = some nd → ∃ content mode, nd = .file content mode := by
  induction n generalizing q s with
  | zero => simp [createSpot] at h
  | succ n ih =>
    unfold createSpot at h
    cases hsp : k.spotFrom fs q (components s) with
    | error e => simp [hsp,bind,Except.bind] at h
    | ok sp =>
      simp only [hsp,bind,Except.bind] at h
      cases sp with
      | self p => simp at h
      | name r d =>
        simp only at h
        obtain ⟨⟨m,hm,_⟩,hd,hdd,hlast,_⟩ := spotFrom_name hsp
        have hdir : fs.isDir r := FileSystem.isDir_iff.mpr ⟨m,hm⟩
        have hproper := properName_of_component hs (List.mem_of_getLast? hlast) hd hdd
        cases hn : fs.node (r ++ [d]) with
        | none =>
          simp only [hn,Except.ok.injEq,Prod.mk.injEq] at h
          obtain ⟨rfl,rfl⟩ := h
          exact ⟨hdir,hproper,by simp [hn]⟩
        | some nd =>
          cases nd with
          | file content mode =>
            simp only [hn,Except.ok.injEq,Prod.mk.injEq] at h
            obtain ⟨rfl,rfl⟩ := h
            exact ⟨hdir,hproper,by simp [hn]⟩
          | dir m => simp [hn] at h
          | link t =>
            simp only [hn] at h
            split_ifs at h <;> exact ih (nulFree_cstr t) h

theorem openCreateEffect_ok {mode : Nat} {p : Path} {c : Name}
    (h : k.openCreateEffect s mode fs = .ok ((p,c),ch)) :
    fs.isDir p ∧ ProperName c ∧
      ((∃ content m, fs.node (p ++ [c]) = some (.file content m)) ∧ ch = none ∨
        ¬ fs.has (p ++ [c]) ∧ ch = some (.put p c (.file [] (k.masked mode)))) := by
  unfold openCreateEffect at h
  split_ifs at h
  cases hc : k.createSpot fs maxLinks (k.start (cstr s)) (components (cstr s)) with
  | error e => simp [hc,bind,Except.bind] at h
  | ok pc =>
    obtain ⟨q,d⟩ := pc
    obtain ⟨hq,hd,hn⟩ := createSpot_ok (nulFree_cstr s) hc
    simp only [hc,bind,Except.bind] at h
    split_ifs at h with hh
    · simp only [Except.ok.injEq,Prod.mk.injEq] at h
      obtain ⟨⟨rfl,rfl⟩,rfl⟩ := h
      obtain ⟨n,hn'⟩ := FileSystem.has_iff.mp hh
      obtain ⟨content,m,rfl⟩ := hn n hn'
      exact ⟨hq,hd,.inl ⟨⟨content,m,hn'⟩,rfl⟩⟩
    · simp only [Except.ok.injEq,Prod.mk.injEq] at h
      obtain ⟨⟨rfl,rfl⟩,rfl⟩ := h
      exact ⟨hq,hd,.inr ⟨hh,rfl⟩⟩

/-- Where a look that does not follow links finds nothing, an opening call creates just there. -/
theorem openCreateEffect_free {mode : Nat} {p : Path} {c : Name}
    (h : k.openCreateEffect s mode fs = .ok ((p,c),ch))
    (hg : ∀ q, k.glance fs s = .ok q → ¬ fs.has q) :
    k.glance fs s = .ok (p ++ [c]) ∧ ¬ fs.has (p ++ [c]) ∧
      ch = some (.put p c (.file [] (k.masked mode))) := by
  unfold openCreateEffect at h
  split_ifs at h with he hsl
  have hglance : k.glance fs s =
      (k.spotFrom fs (k.start (cstr s)) (components (cstr s))).map Spot.place := by
    rw [glance,if_neg hsl,spot,if_neg he]
  rw [hglance] at hg ⊢
  unfold maxLinks createSpot at h
  cases hsp : k.spotFrom fs (k.start (cstr s)) (components (cstr s)) with
  | error e => simp [hsp,bind,Except.bind] at h
  | ok sp =>
    rw [hsp] at hg
    have hfree := hg _ rfl
    cases sp with
    | self q => simp [hsp,bind,Except.bind] at h
    | name q d =>
      have hnone := FileSystem.node_of_not_has hfree
      simp only [Spot.place] at hnone
      simp only [hsp,bind,Except.bind,hnone] at h
      split_ifs at h with hh
      · exact absurd hh hfree
      · simp only [Except.ok.injEq,Prod.mk.injEq] at h
        obtain ⟨⟨rfl,rfl⟩,rfl⟩ := h
        exact ⟨rfl,hh,rfl⟩

theorem openCreateEffect_of_free {mode : Nat} {p : Path} {c : Name}
    (h : k.spot fs s = .ok (.name p c)) (hfree : ¬ fs.has (p ++ [c]))
    (hsl : ¬ endsWithSlash (cstr s)) : k.openCreateEffect s mode fs =
      .ok ((p,c),some (.put p c (.file [] (k.masked mode)))) := by
  unfold spot at h
  split_ifs at h with he
  have hnone := FileSystem.node_of_not_has hfree
  rw [openCreateEffect,if_neg he,if_neg hsl,maxLinks,createSpot]
  simp only [h,bind,Except.bind,hnone]
  rw [if_neg hfree]

end Effects

end Kernel

namespace System

variable {ε α : Type} (sys : System)

def settle (c : Call) (r : Except Errno (α × Option Change)) :
    EStateM ε Disk (Except Errno α) := do
  match r with
  | .ok (a,ch) =>
    modify (·.done ⟨c,ch⟩)
    pure (.ok a)
  | .error e =>
    modify (·.failed c e)
    pure (.error e)

def look (c : Call) (k : FileSystem → Except Errno (α × Option Change)) :
    EStateM ε Disk (Except Errno α) := do
  settle c (k (← get).fs)

def perform (c : Call) (k : FileSystem → Except Errno (α × Option Change)) :
    EStateM ε Disk (Except Errno α) := do
  let d ← get
  match sys.refuse d.tick with
  | some e => settle c (.error e)
  | none => settle c (k d.fs)

def lstat (s : Str) : EStateM ε Disk (Except Errno Node) := look (.lstat s) (sys.lstatEffect s)

def stat (s : Str) : EStateM ε Disk (Except Errno Node) := look (.stat s) (sys.statEffect s)

def readlink (s : Str) : EStateM ε Disk (Except Errno Str) :=
  sys.perform (.readlink s) (sys.readlinkEffect s)

def opendir (s : Str) : EStateM ε Disk (Except Errno (List Name)) := do
  let d ← get
  sys.perform (.opendir s) (sys.opendirEffect (sys.order d.tick) s)

def openRead (s : Str) : EStateM ε Disk (Except Errno Path) :=
  sys.perform (.openRead s) (sys.openReadEffect s)

def openCreate (s : Str) (mode : Nat) : EStateM ε Disk (Except Errno (Path × Name)) :=
  sys.perform (.openCreate s mode) (sys.openCreateEffect s mode)

/-- `O_CREAT | O_EXCL`. -/
def openExcl (s : Str) (mode : Nat) : EStateM ε Disk (Except Errno (Path × Name)) :=
  sys.perform (.openExcl s mode) (sys.makeEffect s (.file [] (sys.masked mode)))

def mkdir (s : Str) (mode : Nat) : EStateM ε Disk (Except Errno (Path × Name)) :=
  sys.perform (.mkdir s mode) (sys.makeEffect s (.dir (sys.masked mode)))

/-- C's `remove`: `unlink`, and `rmdir` for a directory. -/
def remove (s : Str) : EStateM ε Disk (Except Errno Unit) :=
  sys.perform (.remove s) (sys.removeEffect s)

def unlink (s : Str) : EStateM ε Disk (Except Errno Unit) :=
  sys.perform (.unlink s) (sys.unlinkEffect s)

def rename (s t : Str) : EStateM ε Disk (Except Errno Unit) :=
  sys.perform (.rename s t) (sys.renameEffect s t)

def symlink (target s : Str) : EStateM ε Disk (Except Errno (Path × Name)) :=
  sys.perform (.symlink target s) fun fs =>
    if cstr target = [] then .error .ENOENT else sys.makeEffect s (.link (cstr target)) fs

def link (s t : Str) : EStateM ε Disk (Except Errno (Path × Name)) :=
  sys.perform (.link s t) (sys.linkEffect s t)

def read (p : Path) (off count : Nat) : EStateM ε Disk (Except Errno Str) := do
  let d ← get
  sys.perform (.read p) (Kernel.readEffect (sys.transfer d.tick) p off count)

def write (p : Path) (c : Name) (off : Nat) (bytes : Str) :
    EStateM ε Disk (Except Errno Nat) := do
  let d ← get
  sys.perform (.write p c) (Kernel.writeEffect (sys.transfer d.tick) p c off bytes)

def sendfile (input : Path) (p : Path) (c : Name) (inOff outOff count : Nat) :
    EStateM ε Disk (Except Errno Nat) := do
  let d ← get
  sys.perform (.write p c)
    (Kernel.sendfileEffect (sys.transfer d.tick) input p c inOff outOff count)

def fchmod (p : Path) (c : Name) (mode : Nat) : EStateM ε Disk (Except Errno Unit) :=
  sys.perform (.fchmod p c mode) (Kernel.fileEffect p c fun content _ => .file content mode)

/-- `st_size`. -/
def sizeOf (fs : FileSystem) (p : Path) : Nat :=
  match fs.node p with
  | some (.file content _) => content.length
  | some (.link t) => t.length
  | some (.dir _) => sys.dirSize p
  | none => 0

def modeOf (fs : FileSystem) (p : Path) : Nat :=
  match fs.node p with
  | some (.file _ m) => m
  | some (.dir m) => m
  | _ => 511

end System
end Posix
