import Mathlib.Data.Multiset.DershowitzManna
import RootHelper.CopyOutcome
import RootHelper.CopyRun
import RootHelper.DeletionOutcome
import RootHelper.FreeNames
import RootHelper.TreeCopy

/-!
Whether the rounds of a copy come to an end. What a round puts on the stack has longer sources, is
met again with its destination out of the way, or was asked for: the rounds end while the sources
on the stack do not get longer and longer, which they do when a directory is copied into itself.
-/

set_option autoImplicit false

namespace RootHelper
open Posix Control

variable {env : CopyEnv}

/-- Begun in `s` the program does not go on for ever, and no question is forgotten. -/
def TameAt {α : Type} (x : CopyM α) (s : CopyState) : Prop :=
  wp x (fun _ t => s.questions ≤ t.questions) (fun e _ => e ≠ .diverged) s

def Tame {α : Type} (x : CopyM α) : Prop := ∀ s, TameAt x s

section Tame

variable {α β : Type} {x : CopyM α} {f : α → CopyM β} {s : CopyState} {srcI destI : Str}

theorem TameAt.bind (hx : TameAt x s) (hf : ∀ a, Tame (f a)) : TameAt (x >>= f) s := by
  rw [TameAt,wp_bind]
  refine wp_mono hx (fun a t ht => ?_) fun _ _ h => h
  exact wp_mono (hf a t) (fun _ u hu => Nat.le_trans ht hu) fun _ _ h => h

theorem Tame.bind (hx : Tame x) (hf : ∀ a, Tame (f a)) : Tame (x >>= f) := fun s => (hx s).bind hf

theorem tame_pure (a : α) : Tame (pure a : CopyM α) := fun s => Nat.le_refl s.questions

theorem tame_threadExit : Tame (throw .threadExit : CopyM α) := fun _ h => by cases h

theorem Tame.ite {c : Prop} [Decidable c] {y : CopyM α} (hx : Tame x) (hy : Tame y) :
    Tame (if c then x else y) := by
  split
  · exact hx
  · exact hy

theorem tame_modify {g : CopyState → CopyState} (h : ∀ s, s.questions ≤ (g s).questions) :
    Tame (modify g : CopyM PUnit) := fun s => h s

theorem tame_onDisk {y : DiskM α} (h : wp y (fun _ _ => True) (fun e _ => e ≠ .diverged) s.disk) :
    TameAt (onDisk y) s := by
  rw [TameAt,wp_onDisk]
  exact wp_mono h (fun _ _ _ => Nat.le_refl _) fun _ _ h => h

theorem tame_onSock {y : ConnM α} (h : ∀ k, wp y (fun _ _ => True) (fun e _ => e = .threadExit) k) :
    Tame (onSock y) := by
  intro s
  rw [TameAt,wp_onSock]
  refine wp_mono (h s.sock) (fun _ _ _ => Nat.le_refl _) fun e _ he => ?_
  rw [he]
  exact nofun

theorem tame_send (c : Chunk) : Tame (send c) :=
  tame_onSock fun _ => wp_writeAllOrExit (fun _ _ _ => trivial) fun _ _ => rfl

theorem tame_push (pairs : List Pair) : Tame (push pairs) := tame_modify fun _ => Nat.le_refl _

theorem tame_waitConflictOrErrorDec (srcI destI : Str) (isConflict : Bool) :
    Tame (waitConflictOrErrorDec env srcI destI isConflict) := fun _ =>
  wp_waitConflictOrErrorDec (fun _ _ _ _ => Nat.le_succ _) fun _ _ => nofun

theorem tame_unsolvableError (srcI destI : Str) : Tame (unsolvableError env srcI destI) :=
  (tame_waitConflictOrErrorDec srcI destI false).bind fun _ => tame_threadExit.ite (tame_pure _)

theorem tame_sendSkipInfo (srcI : Str) : Tame (sendSkipInfo srcI) :=
  (tame_send _).bind fun _ => Tame.bind (fun s => Nat.le_refl s.questions) fun _ =>
    (tame_send _).bind fun _ => tame_send _

theorem tame_pushChildrenPairs (srcI destI : Str) : Tame (pushChildrenPairs env srcI destI) := by
  refine Tame.bind ?_ fun _ => tame_push _
  refine Tame.bind (fun s => tame_onDisk ?_) fun entries => ?_
  · exact wp_listPlain _ (fun _ _ _ => trivial) fun _ _ _ _ _ => trivial
  · cases entries with
    | none => exact tame_pure _
    | some entries => exact tame_pure _

theorem tame_rename (oldpath newpath : Str) : Tame (onDisk (env.rename oldpath newpath)) :=
  fun _ => tame_onDisk (System.wp_perform (fun _ => trivial) fun _ _ _ => trivial)

theorem tame_renaming (oldpath newpath dest : Str) : Tame (do
    match ← onDisk (env.rename oldpath newpath) with
    | .error _ => unsolvableError env srcI dest
    | .ok _ => push [(srcI,destI)]) := by
  refine (tame_rename oldpath newpath).bind fun r => ?_
  cases r with
  | error e => exact tame_unsolvableError srcI dest
  | ok u => exact tame_push _

theorem tame_readStringWithLen : Tame (onSock readStringWithLen) :=
  tame_onSock fun _ => wp_readStringWithLen (fun _ _ _ => trivial) fun _ _ => rfl

/-- Carrying out a decision: a deletion and a search for a free name are the loops in it. -/
theorem tame_handleConflict {dec : Decision} {t : CflType} (hnul : NulFree destI)
    (hroom : s.disk.fs.paths.length + 1 < 2^32) : TameAt (handleConflict env srcI destI dec t) s := by
  have kept : ∀ {y : CopyM PUnit}, (∀ decs, TameAt y { s with permanentDecs := decs }) →
      TameAt (recordDecision dec t >>= fun _ => y) s := by
    intro y hy
    rw [TameAt,wp_bind,recordDecision]
    split
    · exact hy _
    · exact hy s.permanentDecs
  have search : ∀ decs, TameAt (onDisk (nonExistingDest env destI)) { s with permanentDecs := decs } :=
    fun decs => tame_onDisk (wp_mono (wp_nonExistingDest_ends hnul hroom) (fun _ _ _ => trivial)
      fun _ _ h => h.elim)
  have delete : ∀ decs, TameAt (do
      if (← onDisk (genericDeleteBasicImpl env.toSystem destI)) < 0 then
        unsolvableError env srcI destI
      else push [(srcI,destI)]) { s with permanentDecs := decs } := by
    intro decs
    refine TameAt.bind (tame_onDisk (wp_mono (wp_genericDeleteBasicImpl_ends hnul)
      (fun _ _ _ => trivial) fun e _ he => ?_)) fun _ => ?_
    · rw [he]
      exact nofun
    · exact (tame_unsolvableError _ _).ite (tame_push _)
  unfold handleConflict
  refine kept fun decs => ?_
  cases dec with
  | CD_SKIP => exact tame_sendSkipInfo srcI _
  | CD_SKIP_ALL => exact tame_sendSkipInfo srcI _
  | CD_OVERWRITE => exact delete decs
  | CD_OVERWRITE_ALL => exact delete decs
  | CD_MERGE => exact tame_pushChildrenPairs srcI destI _
  | CD_MERGE_ALL => exact tame_pushChildrenPairs srcI destI _
  | CD_REN_SRC_ALL => exact (search decs).bind fun dest => tame_push _
  | CD_REN_DEST_ALL => exact (search decs).bind fun dest => tame_renaming _ _ _
  | CD_REN_SRC => exact tame_readStringWithLen.bind (fun _ => tame_push _) _
  | CD_REN_DEST => exact tame_readStringWithLen.bind (fun _ => tame_renaming _ _ _) _
  | CD_CANCEL => exact tame_threadExit _
  | CD_MERGE_RECURSIVE => exact tame_pure _ _
  | NO_PREV_DEC => exact tame_pure _ _
  | unknown code => exact tame_pure _ _

end Tame

/-! ### A round -/

section Round

variable {s : CopyState} {pair : Pair} {rest : List Pair} {t : CflType}

/-- The round puts a question about its pair. -/
def Asks (env : CopyEnv) (s : CopyState) : Prop :=
  ∃ c, conflictAt env s = some c ∧ (s.permanentDecs c.2).val = .NO_PREV_DEC

theorem conflictAt_top {c : Pair × CflType} (hS : s.S = pair :: rest)
    (hcfl : conflictAt env s = some c) : c.1 = pair := by
  unfold conflictAt at hcfl
  rw [hS] at hcfl
  simp only at hcfl
  split_ifs at hcfl
  split at hcfl
  · rw [← Option.some.inj hcfl]
  · rw [← Option.some.inj hcfl]
  · cases hcfl

theorem wp_mkpath_ends {path : Str} {mode : Nat} {exist_ok : Bool} {d : Disk} :
    wp (mkpath env.toSystem path mode exist_ok) (fun _ _ => True) (fun _ _ => False) d := by
  have along : ∀ l d, wp (mkpathAlong env.toSystem mode exist_ok l) (fun _ _ => True)
      (fun _ _ => False) d := by
    intro l
    induction l with
    | nil => exact fun _ => trivial
    | cons partialPath l ih =>
      intro d
      rw [mkpathAlong,wp_bind]
      refine System.wp_perform (fun e => ?_) fun _ _ _ => ih _
      rw [wp_ite]
      exact ⟨fun _ => trivial,fun _ => ih _⟩
  unfold mkpath
  rw [wp_ite,wp_ite]
  exact ⟨fun _ => trivial,fun _ => ⟨fun _ => trivial,fun _ => along _ _⟩⟩

/-- What makes a destination that is not there comes to an end, and it is no conflict. -/
theorem tame_making {efd : Efd} {body : CopyM CopyRet} (hmaking : Making env pair efd body)
    (hfree : efdAt env.toKernel s.disk.fs pair.2 = .none) :
    wp body (fun r u => (r = .OK_TYPE ∨ r = .UNSOLVABLE_ERROR_TYPE) ∧ s.questions ≤ u.questions)
      (fun e _ => e ≠ .diverged) s := by
  cases hmaking with
  | file =>
    refine wp_oscopyfile_eq hfree (fun _ _ _ => ⟨.inr rfl,Nat.le_refl _⟩) ?_ ?_
    · intros
      exact ⟨.inl rfl,Nat.le_refl _⟩
    · intros
      exact nofun
  | dir =>
    rw [makeDestDir,wp_bind]
    refine wp_mono (tame_onDisk (wp_mono wp_mkpath_ends (fun _ _ h => h) fun _ _ h => h.elim))
      (fun r u hu => ?_) fun _ _ h => h
    rw [wp_ite]
    refine ⟨fun _ => ⟨.inr rfl,hu⟩,fun _ => ?_⟩
    rw [wp_bind]
    refine wp_mono (tame_pushChildrenPairs pair.1 pair.2 u) (fun _ v hv => ?_) fun _ _ h => h
    exact ⟨.inl rfl,Nat.le_trans hu hv⟩

theorem copyRound_ends_counted (hnul : ∀ pair ∈ s.S.head?, NulFree pair.2)
    (hroom : s.disk.fs.paths.length + 1 < 2^32) :
    wp (copyRound env) (fun _ u => s.questions ≤ u.questions ∧
      (Asks env s → s.questions < u.questions)) (fun e _ => e ≠ .diverged) s := by
  cases hS : s.S with
  | nil =>
    unfold copyRound
    simp only [wp_bind,wp_get,hS,wp_pure]
    refine ⟨Nat.le_refl _,fun hask => ?_⟩
    obtain ⟨c,hc,_⟩ := hask
    simp [conflictAt,hS] at hc
  | cons pair rest =>
    have hnul : NulFree pair.2 := hnul pair (by simp [hS])
    have hfs : (env.checked s.disk pair).fs = s.disk.fs := (checked_quiet s.disk pair).fs_eq
    have hroom : (env.begins s pair rest).disk.fs.paths.length + 1 < 2^32 := by
      change (env.checked s.disk pair).fs.paths.length + 1 < 2^32
      rwa [hfs]
    have unasked : ∀ {u : CopyState}, (conflictAt env s = none ∨ ∃ t, conflictAt env s = some (pair,t) ∧
        (s.permanentDecs t).val ≠ .NO_PREV_DEC) → s.questions ≤ u.questions →
        s.questions ≤ u.questions ∧ (Asks env s → s.questions < u.questions) := by
      intro u hquiet hu
      refine ⟨hu,fun hask => ?_⟩
      obtain ⟨c,hc,hno⟩ := hask
      rcases hquiet with hnone | ⟨t,ht,hkept⟩
      · rw [hnone] at hc
        cases hc
      · rw [ht] at hc
        obtain rfl := Option.some.inj hc
        exact absurd hno hkept
    refine wp_copyRound_cases hS (fun hgone => unasked (.inl (by simp [conflictAt,hS,hgone])) (Nat.le_refl _))
      (fun _ _ _ h => h) (fun efd body he hmaking hfree => ?_) (fun t _ _ info => ?_)
      fun t hcfl hkept => ?_
    · have hnone : conflictAt env s = none := by simp [conflictAt,hS,hfree]
      have hbody := @tame_making env (env.begins s pair rest) pair efd body hmaking (hfs ▸ hfree)
      refine wp_mono hbody (fun r u hu => ?_) fun _ _ h => h
      obtain ⟨rfl | rfl,hu⟩ := hu
      · exact .inl ⟨rfl,unasked (.inl hnone) hu⟩
      · refine .inr ⟨rfl,fun info => ?_⟩
        refine wp_mono (tame_unsolvableError pair.1 pair.2 _) (fun _ v hv => ?_) fun _ _ h => h
        exact unasked (.inl hnone) (Nat.le_trans hu hv)
    · rw [wp_bind]
      refine wp_waitConflictOrErrorDec (fun k _ _ _ => ?_) fun _ _ he => by cases he
      refine wp_mono (tame_handleConflict hnul hroom) (fun _ u hu => ?_) fun _ _ h => h
      change s.questions + 1 ≤ u.questions at hu
      exact ⟨by omega,fun _ => hu⟩
    · have htame : TameAt (if (s.permanentDecs t).val = .CD_SKIP_ALL then sendSkipInfo pair.1
          else handleConflict env pair.1 pair.2 (s.permanentDecs t).val t) (env.begins s pair rest) := by
        split
        · exact tame_sendSkipInfo _ _
        · exact tame_handleConflict hnul hroom
      exact wp_mono htame (fun _ u hu => unasked (.inr ⟨t,hcfl,hkept⟩) hu) fun _ _ h => h

theorem efdAt_deleted {sys : System} {path : Str} {d d' : Disk} {r : Int} (hnul : NulFree path)
    (hclears : ∀ l, sys.unlocked.glance d.fs path = .ok l → d.fs.has l → Clears sys.toKernel d.fs path l)
    (hrun : genericDeleteBasicImpl sys path d = .ok r d') (hr : 0 ≤ r) :
    efdAt sys.toKernel d'.fs path = .none := by
  have hle : d'.fs.Le d.fs := by
    obtain ⟨es,_,hist⟩ := (wp_of_ok hrun).mp (@genericDeleteBasicImpl_deletes sys path d)
    refine @History.invariant _ _ _ _ (fun f => f.Le d.fs) hist (FileSystem.Le.refl _) ?_
    intro f e hle he
    cases hc : e.change with
    | none => simpa [Event.apply,hc] using hle
    | some c =>
      obtain ⟨l,q,_,rfl,_⟩ := he c hc
      simpa [Event.apply,hc] using (erase_le f q).trans hle
  by_contra hne
  obtain ⟨q,hq,hhas⟩ := has_of_efdAt hne
  rcases honest_of_clears hnul hclears hrun with ⟨_,hgone⟩ | hminus
  · exact hgone q (Kernel.glance_unlocked (Kernel.glance_le hle hq)) q List.prefix_rfl hhas
  · omega

/-- Where the destination is to be overwritten by a decision for all, it is gone when the pair is
put back. -/
theorem copyRound_overwrites (hS : s.S = pair :: rest) (hcfl : conflictAt env s = some (pair,t))
    (hkept : (s.permanentDecs t).val = .CD_OVERWRITE_ALL) (hnul : NulFree pair.2)
    (hclears : ∀ l, env.unlocked.glance s.disk.fs pair.2 = .ok l → s.disk.fs.has l →
      Clears env.toKernel s.disk.fs pair.2 l) :
    wp (copyRound env) (fun _ u => u.S = rest ∨ efdAt env.toKernel u.disk.fs pair.2 = .none)
      (fun _ _ => True) s := by
  have hsame : ∀ {t'}, conflictAt env s = some (pair,t') → t' = t := by
    intro t' ht'
    rw [hcfl] at ht'
    exact (Prod.mk.inj (Option.some.inj ht')).2.symm
  refine wp_copyRound_cases hS (fun _ => .inl rfl) (fun _ _ _ h => h) (fun _ _ _ _ hfree => ?_)
    (fun t' ht' hno => ?_) fun t' ht' _ => ?_
  · simp [conflictAt,hS,hfree] at hcfl
  · rw [hsame ht',hkept] at hno
    cases hno
  · rw [hsame ht',hkept,if_neg (by decide),handleConflict,wp_bind]
    refine wp_mono recordDecision_kept (fun _ v hv => ?_) fun _ _ h => h
    obtain ⟨decs,rfl,_⟩ := hv
    rw [wp_bind,wp_onDisk]
    refine wp_result (wp_trivial (fun r d' hrun => ?_) fun _ _ _ => trivial)
    rw [wp_ite]
    refine ⟨fun _ => ?_,fun hr => .inr ?_⟩
    · refine wp_mono (unsolvableError_reports pair.1 pair.2) (fun _ u hu => ?_) fun _ _ h => h
      exact .inl hu.2.stack
    · refine efdAt_deleted hnul ?_ hrun (by omega)
      change ∀ l, env.unlocked.glance (env.checked s.disk pair).fs pair.2 = .ok l →
        (env.checked s.disk pair).fs.has l →
          Clears env.toKernel (env.checked s.disk pair).fs pair.2 l
      rw [(checked_quiet s.disk pair).fs_eq]
      exact hclears

end Round

/-- What lets a round with this stack settle its pair: a name without a NUL, room for numbered names
next to it, and a destination that can be deleted where the decision for all is to overwrite it. -/
structure Settles (env : CopyEnv) (s : CopyState) : Prop where
  nulFree : ∀ pair ∈ s.S.head?, NulFree pair.2
  room : s.disk.fs.paths.length + 1 < 2^32
  clears : decisionAt env s = some .CD_OVERWRITE_ALL → ∀ pair ∈ s.S.head?, ∀ l,
    env.unlocked.glance s.disk.fs pair.2 = .ok l → s.disk.fs.has l →
      Clears env.toKernel s.disk.fs pair.2 l

/-- How much longer each source on the stack may get. -/
def slack (L : Nat) (S : List Pair) : Multiset Nat := S.map fun pair => L - pair.1.length

/-- Whether the pair on top is in conflict. -/
def taken (env : CopyEnv) (s : CopyState) : Nat := if (conflictAt env s).isSome then 1 else 0

section Measure

variable {L N : Nat} {s t : CopyState} {pair : Pair} {rest : List Pair}

theorem slack_popped (hS : s.S = pair :: rest) (ht : t.S = rest) :
    (slack L t.S).IsDershowitzMannaLT (slack L s.S) := by
  refine ⟨slack L rest,0,{L - pair.1.length},by simp,by simp [ht],?_,by simp⟩
  rw [hS,slack,List.map_cons,slack,← Multiset.cons_coe,← Multiset.singleton_add,Multiset.add_comm]

theorem length_pathConcat (x : Str) {c : Name} (hc : ProperName c) :
    x.length < (pathConcat x c).length := by
  have hpos := List.length_pos_of_ne_nil hc.1
  rcases pathConcat_shape x c with ⟨e,_⟩ | e
  · rw [e,List.length_append]
    omega
  · rw [e,List.length_append,List.length_cons]
    omega

theorem slack_children {k : Kernel} {fs : FileSystem} {entries : List (Str × Name)}
    (hS : s.S = pair :: rest) (hlist : Lists k fs pair.1 entries)
    (ht : t.S = (childrenPairs pair.1 pair.2 entries).reverse ++ rest)
    (hlen : ∀ pair ∈ t.S, pair.1.length ≤ L) :
    (slack L t.S).IsDershowitzMannaLT (slack L s.S) := by
  refine ⟨slack L rest,slack L (childrenPairs pair.1 pair.2 entries).reverse,{L - pair.1.length},
    by simp,?_,?_,?_⟩
  · rw [ht,slack,List.map_append,← Multiset.coe_add,Multiset.add_comm]
    rfl
  · rw [hS,slack,List.map_cons,slack,← Multiset.cons_coe,← Multiset.singleton_add,Multiset.add_comm]
  · intro y hy
    obtain ⟨child,hchild,rfl⟩ := List.mem_map.mp (Multiset.mem_coe.mp hy)
    have hle := hlen child (by rw [ht]; exact List.mem_append_left _ hchild)
    obtain ⟨e,he,rfl⟩ := List.mem_map.mp (List.mem_reverse.mp hchild)
    obtain ⟨_,p,names,_,_,hperm,rfl⟩ := hlist
    obtain ⟨c,hc,rfl⟩ := List.mem_map.mp he
    have hproper := FileSystem.proper_of_has (FileSystem.mem_children.mp (hperm.mem_iff.mp hc))
    have hlonger := length_pathConcat pair.1 hproper
    simp only at hle
    exact ⟨_,Multiset.mem_singleton_self _,by simp only; omega⟩

/-- A round that asks nothing has less before it: fewer or longer sources, or the same pair with
its destination free. -/
theorem round_lessens (hS : Settles env s) (hask : ¬ Asks env s)
    (hround : copyRound env s = .ok none t) (hlen : ∀ pair ∈ t.S, pair.1.length ≤ L) :
    (slack L t.S).IsDershowitzMannaLT (slack L s.S) ∨
      slack L t.S = slack L s.S ∧ taken env t < taken env s := by
  obtain ⟨pair,rest,hstack,hthere,hnext⟩ := (Outcome.of_round hround).next
  cases hnext with
  | copied v _ _ _ _ _ ht => exact .inl (slack_popped hstack ht)
  | reported _ _ ht => exact .inl (slack_popped hstack ht)
  | skipped _ ht => exact .inl (slack_popped hstack ht)
  | ignored dec _ _ ht => exact .inl (slack_popped hstack ht)
  | unlisted d _ _ ht => exact .inl (slack_popped hstack ht)
  | children d entries _ _ _ hlist ht => exact .inl (slack_children hstack hlist ht hlen)
  | again dest dec hdec hagain ht =>
    obtain ⟨⟨pair',kind⟩,hcfl,hkept⟩ := Option.map_eq_some_iff.mp hdec
    obtain rfl : pair' = pair := conflictAt_top hstack hcfl
    have hno : ¬ (s.permanentDecs kind).val = .NO_PREV_DEC := fun h => hask ⟨_,hcfl,h⟩
    simp only [if_neg hno] at hkept
    have hall : dec.isForAll := by
      rcases (s.permanentDecs kind).property with h | h
      · exact absurd h hno
      · rwa [hkept] at h
    have hfree : efdAt env.toKernel t.disk.fs dest = .none := by
      rcases hagain with ⟨rfl | rfl,rfl⟩ | ⟨_,hfree⟩ | ⟨rfl | rfl,_⟩
      · cases hall
      · have hgone := (wp_of_ok hround).mp (copyRound_overwrites hstack hcfl hkept
          (hS.nulFree _ (by simp [hstack])) (hS.clears hdec _ (by simp [hstack])))
        rcases hgone with hsame | hgone
        · rw [ht] at hsame
          simp at hsame
        · exact hgone
      · exact hfree
      · cases hall
      · cases hall
    refine .inr ⟨by rw [ht,hstack]; rfl,?_⟩
    have hbefore : taken env s = 1 := by simp [taken,hcfl]
    have hafter : taken env t = 0 := by simp [taken,conflictAt,ht,hfree]
    omega

/-- A question is one less that may be put, or there is less on the stack. -/
def Lessens (env : CopyEnv) (L N : Nat) (t s : CopyState) : Prop :=
  Prod.Lex (· < ·) (Prod.Lex Multiset.IsDershowitzMannaLT (· < ·))
    (N - t.questions,slack L t.S,taken env t) (N - s.questions,slack L s.S,taken env s)

theorem wellFounded_lessens (env : CopyEnv) (L N : Nat) : WellFounded (Lessens env L N) :=
  InvImage.wf (fun s : CopyState => (N - s.questions,slack L s.S,taken env s))
    (WellFounded.prod_lex wellFounded_lt
      (WellFounded.prod_lex Multiset.wellFounded_isDershowitzMannaLT wellFounded_lt))

theorem lessens_of_round (hS : Settles env s) (hround : copyRound env s = .ok none t)
    (hasked : t.questions ≤ N) (hlen : ∀ pair ∈ t.S, pair.1.length ≤ L) : Lessens env L N t s := by
  obtain ⟨hcount,hcounted⟩ :=
    (wp_of_ok hround).mp (copyRound_ends_counted hS.nulFree hS.room)
  by_cases hask : Asks env s
  · have hless := hcounted hask
    exact .left _ _ (by omega)
  · rcases Nat.lt_or_eq_of_le hcount with hless | heq
    · exact .left _ _ (by omega)
    · rw [Lessens,heq]
      rcases round_lessens hS hask hround hlen with hfewer | ⟨hsame,hless⟩
      · exact .right _ (.left _ _ hfewer)
      · rw [hsame]
        exact .right _ (.right _ hless)

theorem rounds_end (hrun : ∀ t, Reached (copyRound env) (fun _ => True) s t →
      Settles env t ∧ t.questions ≤ N ∧ ∀ pair ∈ t.S, pair.1.length ≤ L) :
    Control.Ends (copyRound env) (fun _ _ => True) (fun e _ => e ≠ .diverged) s := by
  induction s using (wellFounded_lessens env L N).induction with
  | _ s ih =>
    obtain ⟨hS,_,_⟩ := hrun s .start
    refine Control.Ends.of_round (wp_result (wp_mono (copyRound_ends_counted hS.nulFree hS.room)
      (fun r t _ hround => ?_) fun _ _ he _ => he))
    cases r with
    | some e => trivial
    | none =>
      have hreach : Reached (copyRound env) (fun _ => True) s t := .round .start trivial hround
      obtain ⟨_,hasked,hlen⟩ := hrun t hreach
      exact ih t (lessens_of_round hS hround hasked hlen) fun u hu => hrun u (hreach.trans hu)

end Measure

section Runs

variable {s₀ s₁ : CopyState} {n N : Nat}

theorem rounds_of_not_endsWithin (h : ¬ endsWithin (copyRound env) n s₁) :
    ∃ t, rounds (copyRound env) n s₁ = .ok none t := by
  induction n generalizing s₁ with
  | zero => exact ⟨s₁,rfl⟩
  | succ n ih =>
    unfold endsWithin at h
    cases hx : copyRound env s₁ with
    | error e t => simp [hx] at h
    | ok r t =>
      cases r with
      | some e => simp [hx] at h
      | none =>
        rw [hx] at h
        obtain ⟨u,hu⟩ := ih h
        refine ⟨u,?_⟩
        rw [rounds,run_bind_ok hx]
        exact hu

theorem wp_maincopy_ends (h : ∀ s₁, announce s₀ = .ok () s₁ →
      wp (rounds (copyRound env) n) (fun r _ => r ≠ none) (fun e _ => e ≠ .diverged) s₁) :
    wp (maincopy env n) (fun r _ => r ≠ none) (fun e _ => e = .crash) s₀ := by
  have hall : wp (copyAll env n) (fun r _ => r ≠ none) (fun e _ => e ≠ .diverged) s₀ := by
    unfold copyAll
    rw [wp_bind]
    refine wp_announce (fun k _ _ hann => ?_) fun _ _ he => by cases he
    rw [wp_bind]
    refine wp_mono (h _ hann) (fun r t hr => ?_) fun _ _ he => he
    cases r with
    | none => exact absurd rfl hr
    | some e =>
      cases e with
      | sourceGone => exact Option.some_ne_none _
      | finished =>
        simp only
        rw [wp_bind]
        refine wp_mono (tame_send (.u64 EOFs_ind) t) (fun _ u _ => ?_) fun _ _ he => he
        rw [wp_bind]
        exact wp_mono (tame_send (.u8 RESPONSE_OK) u) (fun _ _ _ => Option.some_ne_none _)
          fun _ _ he => he
  refine wp_maincopy (wp_mono hall (fun _ _ hr => hr) fun e t he => ?_)
  cases e with
  | threadExit => exact Option.some_ne_none _
  | crash => exact rfl
  | diverged => exact absurd rfl he

theorem maincopy_goes_on {t : CopyState} (hann : announce s₀ = .ok () s₁)
    (hrounds : rounds (copyRound env) n s₁ = .ok none t) : maincopy env n s₀ = .ok none t := by
  have hall : copyAll env n s₀ = .ok none t := by
    rw [copyAll,run_bind_ok hann,run_bind_ok hrounds]
    rfl
  have hsame : wp (maincopy env n) (fun r u => r = none ∧ u = t) (fun _ _ => False) s₀ := by
    unfold maincopy
    rw [wp_bind,wp_attempt,wp_of_ok hall]
    exact ⟨rfl,rfl⟩
  obtain ⟨r,u,hx,rfl,rfl⟩ := ok_of_wp hsame
  exact hx

theorem exists_longest (l : List CopyState) : ∃ L, ∀ s ∈ l, ∀ pair ∈ s.S, pair.1.length ≤ L := by
  refine ⟨((l.flatMap fun s => s.S).map fun pair => pair.1.length).sum,fun s hs pair hpair => ?_⟩
  exact List.single_le_sum (fun _ _ => Nat.zero_le _) _
    (List.mem_map_of_mem (List.mem_flatMap.mpr ⟨s,hs,hpair⟩))

/-- A run in which only so many questions are put, and every round can settle its pair, comes to
an end just when the sources on its stack do not get longer and longer. -/
theorem maincopy_ends_iff (hasked : ∀ s, InRun env s₀ s → s.questions ≤ N)
    (hsettles : ∀ s, InRun env s₀ s → Settles env s) :
    (∃ n t, (∃ e, maincopy env n s₀ = .ok (some e) t) ∨ maincopy env n s₀ = .error .crash t) ↔
      ∃ L, ∀ s, InRun env s₀ s → ∀ pair ∈ s.S, pair.1.length ≤ L := by
  constructor
  · intro hends
    obtain ⟨n,t,hends⟩ := hends
    obtain ⟨L,hL⟩ := exists_longest (begun (copyRound env) n (final announce s₀))
    refine ⟨L,fun s hs => hL s (hs.mem_begun ?_)⟩
    obtain ⟨s₁,hann,_⟩ := hs
    rw [final_ok hann]
    by_contra hgoes
    obtain ⟨u,hu⟩ := rounds_of_not_endsWithin hgoes
    rw [maincopy_goes_on hann hu] at hends
    rcases hends with ⟨e,hx⟩ | hx <;> cases hx
  · intro hbound
    obtain ⟨L,hL⟩ := hbound
    have hround : ∀ s₁, announce s₀ = .ok () s₁ →
        Control.Ends (copyRound env) (fun _ _ => True) (fun e _ => e ≠ .diverged) s₁ := by
      intro s₁ hann
      refine @rounds_end _ L N _ fun t ht => ?_
      have hin : InRun env s₀ t := ⟨s₁,hann,ht⟩
      exact ⟨hsettles t hin,hasked t hin,hL t hin⟩
    have henough : ∃ n, ∀ s₁, announce s₀ = .ok () s₁ →
        wp (rounds (copyRound env) n) (fun r _ => r ≠ none) (fun e _ => e ≠ .diverged) s₁ := by
      cases hann : announce s₀ with
      | error e t => exact ⟨0,nofun⟩
      | ok u s₁ =>
        obtain ⟨n,hn⟩ := hround s₁ hann
        refine ⟨n,fun s₂ hs₂ => ?_⟩
        obtain ⟨_,rfl⟩ := EStateM.Result.ok.inj hs₂
        refine wp_mono hn (fun r t hr => ?_) fun _ _ he => he
        obtain ⟨e,rfl,_⟩ := hr
        exact nofun
    obtain ⟨n,hn⟩ := henough
    have hmain := wp_maincopy_ends hn
    unfold wp at hmain
    cases hx : maincopy env n s₀ with
    | ok r t =>
      rw [hx] at hmain
      obtain ⟨e,rfl⟩ := Option.ne_none_iff_exists'.mp hmain
      exact ⟨n,t,.inl ⟨e,hx⟩⟩
    | error e t =>
      rw [hx] at hmain
      obtain rfl := hmain
      exact ⟨n,t,.inr hx⟩

end Runs

theorem maincopy_ends_over :
    ∃ n t, (∃ e, maincopy (.calm 0) n copyOver = .ok (some e) t) ∨
      maincopy (.calm 0) n copyOver = .error .crash t := by
  have hend : endsWithin (copyRound (.calm 0)) 3 (final announce copyOver) := by decide +kernel
  have hrun : ∀ s ∈ begun (copyRound (.calm 0)) 3 (final announce copyOver),
      (∀ pair ∈ s.S, pair.1.length ≤ 2) ∧ s.questions ≤ 1 ∧
        (∀ pair ∈ s.S.head?, NulFree pair.2) ∧ s.disk.fs.paths.length + 1 < 2^32 ∧
        decisionAt (.calm 0) s ≠ some .CD_OVERWRITE_ALL := by
    decide +kernel
  refine (@maincopy_ends_iff (.calm 0) copyOver 1 (fun s hs => ?_) fun s hs => ?_).mpr
    ⟨2,fun s hs => (hrun s (hs.mem_begun hend)).1⟩
  · exact (hrun s (hs.mem_begun hend)).2.1
  · obtain ⟨_,_,hnul,hroom,hdec⟩ := hrun s (hs.mem_begun hend)
    exact ⟨hnul,hroom,fun h => absurd h hdec⟩

/-- An empty directory is to be copied to the name `c` in it. -/
def IntoItself (env : CopyEnv) (c : Name) (s : CopyState) : Prop :=
  ∃ x p m, s.S = [(x,pathConcat x c)] ∧ absolute x ∧ NulFree x ∧ env.glance s.disk.fs x = .ok p ∧
    s.disk.fs.node p = some (.dir m) ∧ s.disk.fs.children p = []

theorem copyRound_deepens {c : Name} {s : CopyState} (henv : env.Smooth) (hc : ProperName c)
    (h : IntoItself env c s) :
    wp (copyRound env) (fun r t => r = none ∧ IntoItself env c t) (fun _ _ => False) s := by
  obtain ⟨x,p,m,hS,habs,hnul,hp,hnode,hnone⟩ := h
  have hdest : env.glance s.disk.fs (pathConcat x c) = .ok (p ++ [c]) := by
    rw [Kernel.glance_child hnul hc (pathConcat_shape _ _)
      (Kernel.follow_of_glance hp hnode (by simp)) hnode,if_pos (henv.permits _ _ _)]
  have hfree : ¬ s.disk.fs.has (p ++ [c]) := by
    rw [← FileSystem.mem_children,hnone]
    simp
  have hcnul := nulFree_pathConcat hnul hc.2.2.1
  refine wp_copyRound_dir henv hS hp hnode habs (absolute_pathConcat habs) hcnul hdest hfree
    fun t ns hfs _ hperm hstack => ⟨rfl,pathConcat x c,p ++ [c],env.masked defaultMode,?_⟩
  have hdir : s.disk.fs.isDir p := FileSystem.isDir_iff.mpr ⟨m,hnode⟩
  have hput := Change.node_put (FileSystem.canPut_free ⟨hdir,hc⟩ hfree
    (n := .dir (env.masked defaultMode)))
  have hmade : FileSystem.MadeAt (p ++ [c]) s.disk.fs t.disk.fs :=
    ⟨hfree,fun q hq => by rw [hfs,hput,if_neg hq]⟩
  have hnew : t.disk.fs.node (p ++ [c]) = some (.dir (env.masked defaultMode)) := by
    rw [hfs,hput,if_pos rfl]
  have hnames : ns = [c] := by
    refine List.perm_singleton.mp (hperm.trans ((List.perm_ext_iff_of_nodup
      (t.disk.fs.nodup_children p) (List.nodup_singleton c)).mpr fun d => ?_))
    rw [FileSystem.mem_children,List.mem_singleton,FileSystem.has]
    constructor
    · intro hhas
      by_contra hne
      rw [hmade.others _ (by simpa using hne)] at hhas
      have hold := FileSystem.mem_children.mpr hhas
      rw [hnone] at hold
      cases hold
    · rintro rfl
      rw [hnew]
      rfl
  refine ⟨by rw [hstack,hnames]; rfl,absolute_pathConcat habs,hcnul,
    Kernel.glance_le hmade.le hdest,hnew,?_⟩
  rw [List.eq_nil_iff_forall_not_mem]
  intro d hd
  rw [FileSystem.mem_children,FileSystem.has,hmade.free_below d []] at hd
  cases hd

/-- However many rounds there are, there is a directory left to copy into itself. -/
theorem rounds_into_itself {c : Name} {s : CopyState} (henv : env.Smooth) (hc : ProperName c)
    (h : IntoItself env c s) (n : Nat) : ∃ t, rounds (copyRound env) n s = .ok none t := by
  have hstep : ∀ s, IntoItself env c s →
      wp (copyRound env) (fun r t => r.elim (IntoItself env c t) fun _ => False)
        (fun _ _ => False) s := by
    intro s hs
    refine wp_mono (copyRound_deepens henv hc hs) (fun r t ht => ?_) fun _ _ h => h
    obtain ⟨rfl,ht⟩ := ht
    exact ht
  obtain ⟨r,t,hrun,hr⟩ := ok_of_wp (wp_rounds hstep n h)
  cases r with
  | none => exact ⟨t,hrun⟩
  | some e => exact hr.elim

/-- The empty directory `/a` onto `/a/b`. -/
def copyIntoItself : CopyState :=
  .start (.ofEntries [([],.dir 0o755),([text ['a']],.dir 0o755)] (by decide)) []
    [(text ['/','a'],text ['/','a','/','b'])] (fun _ => ⟨0,0,0⟩) ⟨0,1,0⟩

theorem maincopy_into_itself :
    ¬ ∃ n t, (∃ e, maincopy (.calm 0) n copyIntoItself = .ok (some e) t) ∨
      maincopy (.calm 0) n copyIntoItself = .error .crash t := by
  rintro ⟨n,t,hends⟩
  have hann : announce copyIntoItself = .ok () (final announce copyIntoItself) := by
    obtain ⟨_,u,hu,_⟩ := ok_of_wp (x := announce) (Q := fun _ _ => True) (s := copyIntoItself)
      (by decide +kernel)
    rw [final_ok hu,hu]
  have hbegin : IntoItself (.calm 0) (text ['b']) (final announce copyIntoItself) :=
    ⟨text ['/','a'],[text ['a']],0o755,by decide +kernel,by decide,by decide,by decide +kernel,
      by decide +kernel,by decide +kernel⟩
  obtain ⟨u,hu⟩ := rounds_into_itself (smooth_calm 0) (by decide) hbegin n
  rw [maincopy_goes_on hann hu] at hends
  rcases hends with ⟨e,hx⟩ | hx <;> cases hx

end RootHelper
