import RootHelper.CopyOutcome
import RootHelper.Posix.Making

/-!
What the client is told about a copy, and what was copied. The transfer loop takes every failure
for the end of the file, so the end marker is honest exactly when no transfer stops short of it.
-/

set_option autoImplicit false

namespace RootHelper
open Posix Control

variable {env : CopyEnv} {s : CopyState}

/-- What stands at `destination` in `t` is what could be read at `source` in `s`. -/
def Copied (env : CopyEnv) (s t : CopyState) (source destination : Str) : Prop :=
  ∃ input q m, env.follow s.disk.fs source = .ok input ∧
    env.glance t.disk.fs destination = .ok q ∧
    t.disk.fs.node q = some (.file (contentAt s.disk.fs input) m)

def EofSent (s t : CopyState) : Prop := ∃ cs, t.sock.out = s.sock.out ++ cs ∧ .u64 EOF_ind ∈ cs

/-- The end marker and `OK_TYPE` are kept for complete copies; whatever else comes back is the
error that is put to the client. -/
def CallHonest (env : CopyEnv) (s : CopyState) (source destination : Str) : Prop :=
  wp (oscopyfile env source destination)
    (fun r t => (r = .OK_TYPE ∨ EofSent s t → Copied env s t source destination) ∧
      (r = .OK_TYPE ∨ r = .UNSOLVABLE_ERROR_TYPE))
    (fun _ t => EofSent s t → Copied env s t source destination) s

def CallCompletes (env : CopyEnv) (s : CopyState) (source destination : Str) : Prop :=
  ∀ input output, env.opens s.disk source destination = some (input,output) →
    s.sock.takes ((env.written (s.disk.tick+2) (contentAt s.disk.fs input)).length + 2) →
    env.transfersAll ((contentAt s.disk.fs input).length+1) (s.disk.tick+2)
      (contentAt s.disk.fs input)

/-- The ways a call ends. -/
inductive CallEnds (env : CopyEnv) (s : CopyState) (source destination : Str) :
    CopyRet → CopyState → Prop
  | fails {t : CopyState} : env.opens s.disk source destination = none → t.sock = s.sock →
      CallEnds env s source destination .UNSOLVABLE_ERROR_TYPE t
  | copies {t : CopyState} {input p : Path} {c : Name} {m : Nat} {ps : List Str} :
      env.opens s.disk source destination = some (input,p,c) →
      env.follow s.disk.fs source = .ok input → env.glance t.disk.fs destination = .ok (p ++ [c]) →
      ps = env.written (s.disk.tick+2) (contentAt s.disk.fs input) →
      t.disk.fs.node (p ++ [c]) = some (.file ps.flatten m) → s.sock.takes (ps.length + 2) →
      t.sock.out = s.sock.out ++ (transferChunks (env.sizeOf s.disk.fs input) ps ++ [.u64 EOF_ind]) →
      CallEnds env s source destination .OK_TYPE t

theorem oscopyfile_ends {source destination : Str}
    (hfree : efdAt env.toKernel s.disk.fs destination = .none) :
    wp (oscopyfile env source destination) (CallEnds env s source destination)
      (fun _ t => ∃ input output ps cs, env.opens s.disk source destination = some (input,output) ∧
        ps = env.written (s.disk.tick+2) (contentAt s.disk.fs input) ∧
        ¬ s.sock.takes (ps.length + 2) ∧
        cs <+: transferChunks (env.sizeOf s.disk.fs input) ps ∧ t.sock.out = s.sock.out ++ cs) s := by
  refine wp_oscopyfile_eq hfree (fun d hopens _ => ?_) ?_ ?_
  · exact .fails hopens rfl
  · intro input p c d ps m hopens hfollow hhas hglance hnone hps hw _ htakes
    have hle : s.disk.fs.Le d.fs := by
      intro r n hr
      have hne : r ≠ p ++ [c] := fun e => hnone (e ▸ FileSystem.has_iff.mpr ⟨n,hr⟩)
      rw [hw.others r hne]
      exact hr
    exact .copies hopens hfollow (Kernel.glance_le hle hglance) hps hw.node htakes rfl
  · intro input output t ps cs hopens hps htakes hcs ht
    exact ⟨input,output,ps,cs,hopens,hps,htakes,hcs,ht⟩

theorem callHonest_iff {source destination : Str}
    (hfree : efdAt env.toKernel s.disk.fs destination = .none)
    (hsize : ∀ p, env.sizeOf s.disk.fs p < EOF_ind) :
    CallHonest env s source destination ↔ CallCompletes env s source destination := by
  have hends := @oscopyfile_ends _ _ source _ hfree
  unfold CallHonest
  unfold wp at hends ⊢
  cases hx : oscopyfile env source destination s with
  | error e t =>
    rw [hx] at hends
    obtain ⟨input,output,ps,cs,hopens,rfl,htakes,hcs,ht⟩ := hends
    simp only
    constructor
    · intro _ input' output' hopens' htakes'
      obtain ⟨rfl,rfl⟩ := Prod.mk.inj (Option.some.inj (hopens.symm.trans hopens'))
      exact absurd htakes' htakes
    · intro _ hsent
      obtain ⟨cs',hcs',hmem⟩ := hsent
      obtain rfl := List.append_cancel_left (ht.symm.trans hcs')
      exact absurd (hcs.subset hmem) (eof_not_mem_transferChunks (hsize input))
  | ok r t =>
    rw [hx] at hends
    simp only
    cases hends with
    | fails hopens hsock =>
      constructor
      · intro _ input' output' hopens'
        simp [hopens] at hopens'
      · intro _
        refine ⟨fun h => ?_,.inr rfl⟩
        rcases h with h | ⟨cs,hcs,hmem⟩
        · simp at h
        · have hnil : cs = [] := by simpa [hsock] using hcs
          simp [hnil] at hmem
    | @copies _ input p c m ps hopens hfollow hglance hps hnode htakes hout =>
      have hall : (env.written (s.disk.tick+2) (contentAt s.disk.fs input)).flatten =
          contentAt s.disk.fs input ↔ env.transfersAll ((contentAt s.disk.fs input).length+1)
            (s.disk.tick+2) (contentAt s.disk.fs input) :=
        pieces_all_iff _ _ _ (Nat.lt_succ_self _)
      rw [← hps] at hall
      constructor
      · intro h input' output' hopens' htakes'
        have hinput := (Prod.mk.inj (Option.some.inj (hopens.symm.trans hopens'))).1
        obtain ⟨from_,q,m',hfollow',hglance',hnode'⟩ := h.1 (.inl rfl)
        have hfrom := Except.ok.inj (hfollow.symm.trans hfollow')
        obtain rfl := Except.ok.inj (hglance.symm.trans hglance')
        rw [hnode,← hfrom] at hnode'
        rw [← hinput]
        exact hall.mp (Node.file.inj (Option.some.inj hnode')).1
      · intro h
        have hcopied := hall.mpr (h input (p,c) hopens (hps ▸ htakes))
        refine ⟨fun _ => ⟨input,p ++ [c],m,hfollow,hglance,?_⟩,.inl rfl⟩
        rw [hnode,hcopied]

/-- What becomes of an item in the round that takes it from the stack: its file is copied, its
entries become items below a directory, it is put back, or the client has it skipped. -/
inductive Handled (env : CopyEnv) (pair : Pair) (rest : List Pair) (s t : CopyState) : Prop
  | copied : Copied env s t pair.1 pair.2 → t.S = rest → Handled env pair rest s t
  | skipped : (decisionAt env s = some .CD_SKIP ∨ decisionAt env s = some .CD_SKIP_ALL) →
      t.S = rest → Handled env pair rest s t
  | entries (entries : List (Str × Name)) : env.DirAt t.disk.fs pair.2 →
      Lists env.toKernel t.disk.fs pair.1 entries →
      t.S = (childrenPairs pair.1 pair.2 entries).reverse ++ rest → Handled env pair rest s t
  | again (dest : Str) (dec : Decision) : decisionAt env s = some dec →
      Again env dec pair.2 dest s t → t.S = (pair.1,dest) :: rest → Handled env pair rest s t

/-- The item is copied as a whole, to the place the client has chosen for it: a file with its
content, a directory with each of its entries, but for what the client has skipped. -/
inductive Settled (env : CopyEnv) (s₀ : CopyState) : Pair → Prop
  | copied {s t : CopyState} {pair : Pair} : InRun env s₀ s → copyRound env s = .ok none t →
      Copied env s t pair.1 pair.2 → Settled env s₀ pair
  | skipped {s : CopyState} {pair : Pair} {rest : List Pair} : InRun env s₀ s →
      s.S = pair :: rest →
      (decisionAt env s = some .CD_SKIP ∨ decisionAt env s = some .CD_SKIP_ALL) →
      Settled env s₀ pair
  | entries {s t : CopyState} {pair : Pair} {entries : List (Str × Name)} : InRun env s₀ s →
      copyRound env s = .ok none t → env.DirAt t.disk.fs pair.2 →
      Lists env.toKernel t.disk.fs pair.1 entries →
      (∀ child ∈ childrenPairs pair.1 pair.2 entries, Settled env s₀ child) → Settled env s₀ pair
  | again {s t : CopyState} {pair : Pair} {rest : List Pair} {dest : Str} {dec : Decision} :
      InRun env s₀ s → s.S = pair :: rest → copyRound env s = .ok none t →
      decisionAt env s = some dec → Again env dec pair.2 dest s t → Settled env s₀ (pair.1,dest) →
      Settled env s₀ pair

/-- The round transfers its file to the end, lists its directory for one at the destination, is
answered with something the dispatch knows, and nothing it asks of the system is refused. -/
structure RoundCompletes (env : CopyEnv) (s : CopyState) : Prop where
  transfer : ∀ pair rest, s.S = pair :: rest → decisionAt env s = none →
    efdAt env.toKernel s.disk.fs pair.1 = .file →
    CallCompletes env (env.begins s pair rest) pair.1 pair.2
  list : ∀ pair rest d, s.S = pair :: rest → Listing env s pair d →
    Listable env.toSystem d pair.1 ∧ env.DirAt d.fs pair.2
  answer : ∀ dec, decisionAt env s = some dec → dec.ignored = false
  granted : ∀ pair rest, s.S = pair :: rest → ¬ CallRefused env s pair

theorem copied_of_completes {source destination : Str} {t : CopyState}
    (hfree : efdAt env.toKernel s.disk.fs destination = .none)
    (hc : CallCompletes env s source destination)
    (h : oscopyfile env source destination s = .ok .OK_TYPE t) :
    Copied env s t source destination := by
  have hends := @oscopyfile_ends _ _ source _ hfree
  unfold wp at hends
  rw [h] at hends
  cases hends with
  | @copies _ input p c m ps hopens hfollow hglance hps hnode htakes hout =>
    refine ⟨input,p ++ [c],m,hfollow,hglance,?_⟩
    subst hps
    have hall : (env.written (s.disk.tick+2) (contentAt s.disk.fs input)).flatten =
        contentAt s.disk.fs input :=
      (pieces_all_iff _ _ _ (Nat.lt_succ_self _)).mpr (hc input (p,c) hopens htakes)
    rw [hnode,hall]

theorem handled_of_completes {t : CopyState} {pair : Pair} {rest : List Pair}
    (hc : RoundCompletes env s) (hS : s.S = pair :: rest) (h : copyRound env s = .ok none t) :
    Handled env pair rest s t := by
  obtain ⟨pair',rest',hS',hthere,hnext⟩ := (Outcome.of_round h).next
  obtain ⟨rfl,rfl⟩ := List.cons.inj (hS.symm.trans hS')
  cases hnext with
  | copied v hdec hefd hcopy hd hk ht =>
    have hsame : (env.begins s pair rest).disk.fs = s.disk.fs := (checked_quiet s.disk pair).fs_eq
    have hfree : efdAt env.toKernel (env.begins s pair rest).disk.fs pair.2 = .none := by
      rw [hsame]
      by_contra hn
      simp [decisionAt,conflictAt,hS,hn,hefd] at hdec
    obtain ⟨input,q,m,hfollow,hglance,hnode⟩ :=
      copied_of_completes hfree (hc.transfer pair rest hS hdec hefd) hcopy
    rw [hsame] at hfollow hnode
    rw [← hd] at hglance hnode
    exact .copied ⟨input,q,m,hfollow,hglance,hnode⟩ ht
  | reported href _ _ => exact absurd href (hc.granted pair rest hS)
  | skipped hdec ht => exact .skipped hdec ht
  | ignored dec hdec hign _ => simp [hc.answer dec hdec] at hign
  | unlisted d hlisting hno _ => exact absurd (hc.list pair rest d hS hlisting).1 hno
  | children d entries hlisting hfs _ hlist ht =>
    exact .entries entries (hfs ▸ (hc.list pair rest d hS hlisting).2) hlist ht
  | again dest dec hdec hagain ht => exact .again dest dec hdec hagain ht

theorem settled_of_finishes {s₀ t : CopyState} (hc : ∀ s, InRun env s₀ s → RoundCompletes env s)
    {n : Nat} {pair : Pair} (hrun : InRun env s₀ s) (hpair : pair ∈ s.S)
    (h : rounds (copyRound env) n s = .ok (some .finished) t) : Settled env s₀ pair := by
  induction n generalizing s pair with
  | zero =>
    change EStateM.Result.ok none s = .ok (some Ending.finished) t at h
    simp at h
  | succ n ih =>
    obtain ⟨r,v,hv,hrest⟩ := ok_of_run_bind h
    cases r with
    | some b =>
      change EStateM.Result.ok (some b) v = .ok (some Ending.finished) t at hrest
      simp only [EStateM.Result.ok.injEq,Option.some.injEq] at hrest
      rw [hrest.1] at hv
      rw [stack_of_finished hv] at hpair
      simp at hpair
    | none =>
      obtain ⟨top,rest,hS,_,_⟩ := (Outcome.of_round hv).next
      have hnext : InRun env s₀ v := hrun.reached (.round .start trivial hv)
      have later : ∀ q ∈ v.S, Settled env s₀ q := fun q hq => ih hnext hq hrest
      have hhandled := handled_of_completes (hc s hrun) hS hv
      rw [hS] at hpair
      rcases List.mem_cons.mp hpair with rfl | hmem
      · cases hhandled with
        | copied hcopied _ => exact .copied hrun hv hcopied
        | skipped hdec _ => exact .skipped hrun hS hdec
        | entries entries hdir hlist hvS =>
          refine .entries hrun hv hdir hlist fun child hchild => later child ?_
          rw [hvS]
          exact List.mem_append_left _ (List.mem_reverse.mpr hchild)
        | again dest dec hdec hagain hvS =>
          refine .again hrun hS hv hdec hagain (later _ ?_)
          rw [hvS]
          exact List.mem_cons_self
      · refine later pair ?_
        cases hhandled with
        | copied _ hvS => rw [hvS]; exact hmem
        | skipped _ hvS => rw [hvS]; exact hmem
        | entries _ _ _ hvS => rw [hvS]; exact List.mem_append_right _ hmem
        | again _ _ _ _ hvS => rw [hvS]; exact List.mem_cons_of_mem _ hmem

/-- `/a` to `/b`. -/
def copyOne : CopyState :=
  .start oneFile [] [(text ['/','a'],text ['/','b'])] (fun _ => ⟨0,0,0⟩) ⟨1,0,1⟩

/-- The fifth call, the first transfer of `copyOne`, finds no space left. -/
def fullDisk : CopyEnv :=
  { CopyEnv.calm 0 with refuse := fun t => if t = 4 then some (.other 28) else none }

theorem roundCompletes_of_empty (h : s.S = []) : RoundCompletes env s := by
  refine ⟨fun _ _ hS => ?_,fun _ _ _ hS => ?_,fun dec hdec => ?_,fun _ _ hS => ?_⟩
  · simp [h] at hS
  · simp [h] at hS
  · simp [decisionAt,conflictAt,h] at hdec
  · simp [h] at hS

theorem roundCompletes_of_overwrite {pair : Pair} {rest : List Pair} (hS : s.S = pair :: rest)
    (hdec : decisionAt env s = some .CD_OVERWRITE)
    (hdel : wp (genericDeleteBasicImpl env.toSystem pair.2) (fun r _ => 0 ≤ r) (fun _ _ => True)
      (env.checked s.disk pair)) : RoundCompletes env s := by
  refine ⟨fun _ _ _ h => ?_,fun q _ d hq hlisting => ?_,fun dec h => ?_,fun q _ hq href => ?_⟩
  · simp [hdec] at h
  · obtain ⟨rfl,_⟩ := List.cons.inj (hS.symm.trans hq)
    simp [Listing,hdec] at hlisting
  · obtain rfl := Option.some.inj (hdec.symm.trans h)
    rfl
  · obtain ⟨rfl,_⟩ := List.cons.inj (hS.symm.trans hq)
    cases href with
    | file h => simp [hdec] at h
    | dir h => simp [hdec] at h
    | decided h hundone =>
      obtain rfl := Option.some.inj (hdec.symm.trans h)
      cases hundone with
      | denied hdenied =>
        cases hdenied with
        | delete _ hres hless =>
          have hr := (wp_of_ok hres).mp hdel
          omega
      | rename h => simp at h

theorem roundCompletes_of_file {pair : Pair} {rest : List Pair} (hS : s.S = pair :: rest)
    (hdec : decisionAt env s = none) (hfile : efdAt env.toKernel s.disk.fs pair.1 = .file)
    (hcall : CallCompletes env (env.begins s pair rest) pair.1 pair.2)
    (hopens : env.opens (env.checked s.disk pair) pair.1 pair.2 ≠ none) : RoundCompletes env s := by
  refine ⟨fun q qs hq _ _ => ?_,fun q _ d hq hlisting => ?_,fun dec h => ?_,fun q _ hq href => ?_⟩
  · obtain ⟨rfl,rfl⟩ := List.cons.inj (hS.symm.trans hq)
    exact hcall
  · obtain ⟨rfl,_⟩ := List.cons.inj (hS.symm.trans hq)
    simp [Listing,hdec,hfile] at hlisting
  · simp [hdec] at h
  · obtain ⟨rfl,_⟩ := List.cons.inj (hS.symm.trans hq)
    cases href with
    | file _ _ h => exact hopens h
    | dir _ h => simp [hfile] at h
    | decided h => simp [hdec] at h

theorem copyOver_completes (hs : InRun (.calm 0) copyOver s) : RoundCompletes (.calm 0) s := by
  obtain ⟨s₁,hann,hreach⟩ := hs
  obtain rfl := final_ok hann
  have hfirst : (final announce copyOver).S = [(text ['/','a'],text ['/','b'])] ∧
      decisionAt (.calm 0) (final announce copyOver) = some .CD_OVERWRITE ∧
      wp (genericDeleteBasicImpl (CopyEnv.calm 0).toSystem (text ['/','b'])) (fun r _ => 0 ≤ r)
        (fun _ _ => True) ((CopyEnv.calm 0).checked (final announce copyOver).disk
          (text ['/','a'],text ['/','b'])) := by decide +kernel
  -- what is deleted in the first round is free in the second
  have hsecond : (final (copyRound (.calm 0)) (final announce copyOver)).S =
        [(text ['/','a'],text ['/','b'])] ∧
      decisionAt (.calm 0) (final (copyRound (.calm 0)) (final announce copyOver)) = none ∧
      efdAt (CopyEnv.calm 0).toKernel
        (final (copyRound (.calm 0)) (final announce copyOver)).disk.fs (text ['/','a']) = .file := by
    decide +kernel
  have hcopy : ∀ d, d = (CopyEnv.calm 0).checked
        (final (copyRound (.calm 0)) (final announce copyOver)).disk
          (text ['/','a'],text ['/','b']) →
      (CopyEnv.calm 0).opens d (text ['/','a']) (text ['/','b']) =
          some ([text ['a']],[],text ['b']) ∧
        (CopyEnv.calm 0).transfersAll ((contentAt d.fs [text ['a']]).length+1) (d.tick+2)
          (contentAt d.fs [text ['a']]) := by
    intro d hd
    rw [hd]
    decide +kernel
  have hthird : (final (copyRound (.calm 0)) (final (copyRound (.calm 0))
      (final announce copyOver))).S = [] := by decide +kernel
  rcases hreach.first with hs | ⟨t,ht,hreach⟩
  · rw [hs]
    exact roundCompletes_of_overwrite hfirst.1 hfirst.2.1 hfirst.2.2
  · rw [final_ok ht] at hsecond hcopy hthird
    rcases hreach.first with hs | ⟨u,hu,hreach⟩
    · obtain ⟨hS,hdec,hfile⟩ := hsecond
      obtain ⟨hopens,hall⟩ := hcopy _ rfl
      rw [hs]
      refine roundCompletes_of_file hS hdec hfile (fun input output ho _ => ?_) (by simp [hopens])
      obtain ⟨rfl,_⟩ := Prod.mk.inj (Option.some.inj (hopens.symm.trans ho))
      exact hall
    · rw [final_ok hu] at hthird
      rcases hreach.first with hs | ⟨v,hv,_⟩
      · rw [hs]
        exact roundCompletes_of_empty hthird
      · obtain ⟨pair,rest,hS,_⟩ := (Outcome.of_round hv).next
        simp [hthird] at hS

end RootHelper
