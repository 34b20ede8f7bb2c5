import RootHelper.Posix.View

/-!
What the looking calls answer for paths of any length, links among them. The answers are those of a
file system where each path that is listed stands for a directory of it.
-/

set_option autoImplicit false

namespace Posix

def Node.kind : Node → Kind
  | .file _ _ => .file
  | .dir _ => .dir
  | .link _ => .link

structure Answers where
  lstat : Str → Option Stat
  stat : Str → Option Stat
  readlink : Str → Option Str
  /-- Without the two dot names. -/
  opendir : Str → Option (List Name)

def View.answers (v : View) : Answers := ⟨v.lstat,v.stat,fun _ => none,v.opendir⟩

/-- `place` says where a path leads. A directory that is listed shows what is in it, and where an entry
of it can be looked at that is the node there. -/
structure Answers.Shows (a : Answers) (fs : FileSystem) (place : Str → Option Path) : Prop where
  opendir {s : Str} {names : List Name} : a.opendir s = some names →
    ∃ p, place s = some p ∧ fs.isDir p ∧ names.Perm (fs.children p)
  entry {s : Str} {p : Path} {c : Name} {st : Stat} : NulFree s → ProperName c → place s = some p →
    fs.isDir p → a.lstat (s ++ slash :: c) = some st →
    ∃ n, fs.node (p ++ [c]) = some n ∧ st.kind = n.kind ∧
      (n.isDir → place (s ++ slash :: c) = some (p ++ [c]))

theorem Answers.Shows.names {a : Answers} {fs : FileSystem} {place : Str → Option Path} {s : Str}
    {names : List Name} (h : a.Shows fs place) (hopen : a.opendir s = some names) :
    names.Nodup ∧ ∀ c ∈ names, ProperName c := by
  obtain ⟨p,_,_,hperm⟩ := h.opendir hopen
  refine ⟨hperm.nodup_iff.mpr (fs.nodup_children p),fun c hc => ?_⟩
  exact FileSystem.proper_of_has (FileSystem.mem_children.mp (hperm.subset hc))

/-- Times and owners are of no matter here. -/
def Node.stat (n : Node) : Stat where
  kind := n.kind
  mode := match n with
    | .file _ mode => mode
    | .dir mode => mode
    | .link _ => 511
  uid := 0
  gid := 0
  size := match n with
    | .file content _ => .ofNat content.length
    | .dir _ => 4096
    | .link target => .ofNat target.length
  atime := 0
  mtime := 0
  ctime := 0

def Kernel.answers (k : Kernel) (fs : FileSystem) (readable : Str → Bool) : Answers where
  lstat s := (Kernel.nodeAt fs (k.glance fs s)).toOption.map Node.stat
  stat s := (Kernel.nodeAt fs (k.follow fs s)).toOption.map Node.stat
  readlink s :=
    match Kernel.nodeAt fs (k.glance fs s) with
    | .ok (.link target) => some target
    | _ => none
  opendir s :=
    match k.follow fs s with
    | .ok p => if readable s ∧ fs.isDir p then some (fs.children p) else none
    | .error _ => none

theorem ok_of_toOption {ε α : Type} {e : Except ε α} {x : α} (h : e.toOption = some x) : e = .ok x := by
  cases e with
  | error e => cases h
  | ok y => exact congrArg _ (Option.some.inj h)

theorem Kernel.answers_shows (k : Kernel) (fs : FileSystem) (readable : Str → Bool) :
    (k.answers fs readable).Shows fs fun s => (k.follow fs s).toOption where
  opendir {s names} h := by
    simp only [answers] at h
    cases hp : k.follow fs s with
    | error e => simp [hp] at h
    | ok p =>
      simp only [hp] at h
      split_ifs at h with hread
      obtain rfl := Option.some.inj h
      exact ⟨p,rfl,hread.2,List.Perm.refl _⟩
  entry {s p c st} hs hc hp hdir h := by
    have hfollow := ok_of_toOption hp
    obtain ⟨m,hm⟩ := FileSystem.isDir_iff.mp hdir
    have hglance := glance_child hs hc (.inr rfl) hfollow hm
    simp only [answers] at h
    cases hn : nodeAt fs (k.glance fs (s ++ slash :: c)) with
    | error e => simp [hn,Except.toOption] at h
    | ok n =>
      obtain ⟨q,hq,hnode⟩ := nodeAt_ok hn
      have hplace : q = p ++ [c] := by
        rw [hglance] at hq
        split_ifs at hq
        exact (Except.ok.inj hq).symm
      subst hplace
      rw [hn] at h
      obtain rfl := Option.some.inj h
      refine ⟨n,hnode,rfl,fun hd => ?_⟩
      have hlink : ∀ t, n ≠ .link t := by
        rintro t rfl
        simp [Node.isDir] at hd
      rw [follow_of_glance hq hnode hlink]
      rfl

end Posix
