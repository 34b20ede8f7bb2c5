import RootHelper.CopyRun
import RootHelper.FileTransfer
import RootHelper.Posix.Copies

/-!
A copy that meets no obstacle: the destinations are free, no call is refused and every transfer
goes on to the end of its file. Then the stack is the part of the trees still to be copied, and
the run ends with each source tree at its destination.
-/

set_option autoImplicit false

namespace RootHelper
open Posix Control

/-- No call is refused, every transfer moves something, and where a buffer is read and then
written, all of it. -/
structure CopyEnv.Smooth (env : CopyEnv) : Prop extends env.toSystem.Fair where
  permits : ∀ p c m, env.permits p c m = true
  whole : env.platform = .android32 → ∀ t, (COPY_CHUNK_SIZE : Int) ≤ env.transfer t

variable {env : CopyEnv} {s : CopyState} {pair : Pair} {rest : List Pair}

theorem transfersAll_of_smooth (henv : env.Smooth) (n tick : Nat) (content : Str)
    (hn : content.length < n) : env.transfersAll n tick content := by
  induction n generalizing tick content with
  | zero => omega
  | succ n ih =>
    rw [CopyEnv.transfersAll,decide_eq_true_eq]
    by_cases hc : content = []
    · exact .inl hc
    · have hpos : 0 < content.length := List.length_pos_of_ne_nil hc
      have hgiven : ∀ t avail, env.given t avail = avail.take (env.transfer t).toNat := by
        intro t avail
        simp [CopyEnv.given,henv.grants]
      have hlen : (env.given tick (content.take COPY_CHUNK_SIZE)).length =
          min (env.transfer tick).toNat (min COPY_CHUNK_SIZE content.length) := by
        rw [hgiven,List.length_take,List.length_take]
      have hamount := henv.moves tick
      have hchunk : 0 < COPY_CHUNK_SIZE := by decide
      have hturn : (env.turn tick content).1 = env.given tick (content.take COPY_CHUNK_SIZE) := by
        unfold CopyEnv.turn
        split
        · rename_i hplat
          have hwhole := henv.whole hplat (tick+1)
          simp only [hgiven (tick+1)]
          refine List.take_of_length_le ?_
          omega
        · rfl
      have hused : (env.turn tick content).2 =
          (env.given tick (content.take COPY_CHUNK_SIZE)).length := by
        unfold CopyEnv.turn
        split <;> rfl
      refine .inr ⟨?_,by rw [hturn,hused],ih _ _ ?_⟩
      · rw [hturn]
        refine List.ne_nil_of_length_pos ?_
        omega
      · rw [List.length_drop,hused]
        omega

theorem efdAt_of_node {k : Kernel} {fs : FileSystem} {x : Str} {p : Path} {n : Node}
    (h : k.glance fs x = .ok p) (hn : fs.node p = some n) :
    efdAt k fs x = if n.isDir then .dir else .file := by
  simp only [efdAt,Kernel.nodeAt,h,bind,Except.bind,hn]
  cases n <;> rfl

theorem efdAt_of_free {k : Kernel} {fs : FileSystem} {x : Str} {p : Path}
    (h : k.glance fs x = .ok p) (hfree : ¬ fs.has p) : efdAt k fs x = .none := by
  simp only [efdAt,Kernel.nodeAt,h,bind,Except.bind,FileSystem.node_of_not_has hfree]

section Round

variable {a b : Path} {E : Stop → CopyState → Prop} {Q : Option Ending → CopyState → Prop}

theorem wp_copyRound_file {content : Str} {m : Nat} (henv : env.Smooth) (hS : s.S = pair :: rest)
    (hsrc : env.glance s.disk.fs pair.1 = .ok a) (hnode : s.disk.fs.node a = some (.file content m))
    (hdest : env.glance s.disk.fs pair.2 = .ok b) (hfree : ¬ s.disk.fs.has b)
    (htakes : ∀ n, s.sock.takes n)
    (hQ : ∀ t ps, Wrote b content m s.disk.fs t.disk.fs → t.S = rest → ps.flatten = content →
      t.sock = s.sock.sent (transferChunks content.length ps ++ [.u64 EOF_ind]) → Q none t) :
    wp (copyRound env) Q E s := by
  obtain ⟨p,c,hspot,rfl,hsl⟩ := Kernel.spot_of_glance_free hdest hfree
  have hfollow : env.follow s.disk.fs pair.1 = .ok a :=
    Kernel.follow_of_glance hsrc hnode (by simp)
  have hhas : s.disk.fs.has a := FileSystem.has_iff.mpr ⟨_,hnode⟩
  have hefd : efdAt env.toKernel s.disk.fs pair.1 = .file := efdAt_of_node hsrc hnode
  have hnone : efdAt env.toKernel s.disk.fs pair.2 = .none := efdAt_of_free hdest hfree
  unfold copyRound
  simp only [wp_bind,wp_get,hS,wp_set]
  rw [wp_onDisk]
  refine wp_existsIsFileIsDir_ fun d₁ h₁ => ?_
  simp only [hefd,fileCopy,wp_bind]
  rw [wp_onDisk]
  refine wp_existsIsFileIsDir_ fun d₂ h₂ => ?_
  simp only [h₁.fs_eq] at *
  have hfs : d₂.fs = s.disk.fs := h₂.fs_eq.trans h₁.fs_eq
  rw [hnone,if_pos rfl]
  have hopens : env.opens d₂ pair.1 pair.2 = some (a,p,c) := by
    have hread : env.openReadEffect pair.1 d₂.fs = .ok (a,none) := by
      simp [Kernel.openReadEffect,hfs,hfollow,bind,Except.bind,hhas]
    have hcreate : env.openCreateEffect pair.2 0o644 d₂.fs =
        .ok ((p,c),some (.put p c (.file [] (env.masked 0o644)))) := by
      rw [hfs]
      exact Kernel.openCreateEffect_of_free hspot hfree hsl
    simp [CopyEnv.opens,henv.grants,hread,hcreate]
  rw [wp_bind]
  refine wp_oscopyfile_eq (by simpa only [hfs] using hnone) (fun d h _ => ?_) ?_ ?_
  · simp only at h
    simp [hopens] at h
  · intro input p' c' d ps m' h _ _ _ _ hps hw hm _
    simp only at h
    rw [hopens] at h
    obtain ⟨rfl,hpc⟩ := Prod.mk.inj (Option.some.inj h)
    obtain ⟨rfl,rfl⟩ := Prod.mk.inj hpc
    simp only [hfs] at hps hw hm
    have hcontent : contentAt s.disk.fs a = content := by simp [contentAt,hnode]
    have hmode : m' = m := by simpa [System.modeOf,hnode] using hm henv.grants
    have hall : ps.flatten = content := by
      rw [hps,hcontent]
      exact (pieces_all_iff _ _ _ (Nat.lt_succ_self _)).mpr
        (transfersAll_of_smooth henv _ _ _ (Nat.lt_succ_self _))
    have hsize : env.sizeOf d₂.fs a = content.length := by simp [System.sizeOf,hfs,hnode]
    rw [hall,hmode] at hw
    simp only [noteError,settlePair,wp_pure,wp_modify,if_true,hsize]
    exact hQ _ ps hw rfl hall rfl
  · intro input output t ps cs _ _ h
    exact absurd (htakes _) h

theorem wp_copyRound_dir {p : Path} {c : Name} {m : Nat} (henv : env.Smooth)
    (hS : s.S = pair :: rest) (hsrc : env.glance s.disk.fs pair.1 = .ok a)
    (hnode : s.disk.fs.node a = some (.dir m)) (habs₁ : absolute pair.1) (habs₂ : absolute pair.2)
    (hnul₂ : NulFree pair.2) (hdest : env.glance s.disk.fs pair.2 = .ok (p ++ [c]))
    (hfree : ¬ s.disk.fs.has (p ++ [c]))
    (hQ : ∀ (t : CopyState) (names : List Name),
      t.disk.fs = (Change.put p c (.dir (env.masked defaultMode))).apply s.disk.fs →
      t.sock = s.sock → names.Perm (t.disk.fs.children a) →
      t.S = (names.map fun n => (pathConcat pair.1 n,pathConcat pair.2 n)) ++ rest → Q none t) :
    wp (copyRound env) Q E s := by
  have hfollow : env.follow s.disk.fs pair.1 = .ok a :=
    Kernel.follow_of_glance hsrc hnode (by simp)
  have hefd : efdAt env.toKernel s.disk.fs pair.1 = .dir := efdAt_of_node hsrc hnode
  have hnone : efdAt env.toKernel s.disk.fs pair.2 = .none := efdAt_of_free hdest hfree
  obtain ⟨p',c',hspot,he,_⟩ := Kernel.spot_of_glance_free hdest hfree
  obtain ⟨rfl,e⟩ := List.append_inj' he rfl
  obtain rfl : c = c' := by simpa using e
  have hle : s.disk.fs.Le ((Change.put p c (.dir (env.masked defaultMode))).apply s.disk.fs) :=
    FileSystem.put_le (Kernel.spot_name hspot) hfree
  unfold copyRound
  simp only [wp_bind,wp_get,hS,wp_set]
  rw [wp_onDisk]
  refine wp_existsIsFileIsDir_ fun d₁ h₁ => ?_
  simp only [hefd,dirCopy,wp_bind]
  rw [wp_onDisk]
  refine wp_existsIsFileIsDir_ fun d₂ h₂ => ?_
  simp only [h₁.fs_eq] at *
  have hfs : d₂.fs = s.disk.fs := h₂.fs_eq.trans h₁.fs_eq
  rw [hnone,if_pos rfl,makeDestDir,wp_bind,wp_bind,wp_onDisk]
  refine wp_mkpath_free henv.grants habs₂ hnul₂ (by simpa only [hfs] using hdest)
    (by simpa only [hfs] using hfree) fun d₃ h₃ => ?_
  rw [hfs] at h₃
  rw [wp_ite]
  refine ⟨fun h => by omega,fun _ => ?_⟩
  have hlistable : Listable env.toSystem d₃ pair.1 := by
    refine ⟨habs₁,henv.grants _,a,?_,?_⟩
    · rw [h₃]
      exact Kernel.follow_le hle hfollow
    · rw [h₃]
      exact FileSystem.isDir_iff.mpr ⟨m,hle _ _ hnode⟩
  simp only [wp_bind,pushChildrenPairs,listChildrenPairs]
  rw [wp_onDisk]
  refine wp_listPlain _ (fun _ _ h => absurd hlistable h) fun entries d₄ h₄ _ hlist => ?_
  obtain ⟨_,q,names,hq,_,hperm,rfl⟩ := hlist
  obtain rfl : q = a := by
    rw [h₃] at hq
    exact Except.ok.inj (hq.symm.trans (Kernel.follow_le hle hfollow))
  simp only [push,wp_modify,noteError,settlePair,wp_pure,if_true]
  refine hQ _ names.reverse (h₄.fs_eq.trans h₃) rfl ?_ ?_
  · simp only [h₄.fs_eq]
    exact (List.reverse_perm names).trans hperm
  · simp [List.map_reverse,Function.comp_def]

end Round

/-- The pair names something and a free place for it; iterators and `mkpath` take absolute paths
only. -/
structure Directs (k : Kernel) (fs : FileSystem) (pair : Pair) (ab : Path × Path) : Prop where
  source : k.glance fs pair.1 = .ok ab.1
  dest : k.glance fs pair.2 = .ok ab.2
  there : fs.has ab.1
  free : ¬ fs.has ab.2
  dirs : fs.isDir ab.1 → (absolute pair.1 ∧ NulFree pair.1) ∧ absolute pair.2 ∧ NulFree pair.2

theorem Directs.mono {k : Kernel} {fs fs' : FileSystem} {ab : Path × Path} (h : Directs k fs pair ab)
    (hle : fs.Le fs') (hsource : fs'.node ab.1 = fs.node ab.1)
    (hdest : fs'.node ab.2 = fs.node ab.2) : Directs k fs' pair ab := by
  refine ⟨Kernel.glance_le hle h.source,Kernel.glance_le hle h.dest,?_,?_,fun hd => h.dirs ?_⟩
  · simpa only [FileSystem.has,hsource] using h.there
  · simpa only [FileSystem.has,hdest] using h.free
  · simpa only [FileSystem.isDir,hsource] using hd

theorem there_of_leads {k : Kernel} {fs : FileSystem} {pairs : List Pair} {pls : Places}
    (h : List.Forall₂ (Directs k fs) pairs pls) : ∀ ab ∈ pls, fs.has ab.1 := by
  induction h with
  | nil => simp
  | cons hpair _ ih =>
    intro ab hab
    rcases List.mem_cons.mp hab with rfl | hab
    · exact hpair.there
    · exact ih ab hab

/-- What is sent of a file, which was written in the pieces given. -/
def fileChunks (f : Path × List Str) : List Chunk :=
  transferChunks f.2.flatten.length f.2 ++ [.u64 EOF_ind]

/-- What holds before each round: the pairs on the stack lead to the parts of the trees that are
still to be copied, and each file that is no longer among them was sent. -/
structure Copying (env : CopyEnv) (fs₀ : FileSystem) (pls : Places) (out : List Chunk)
    (s : CopyState) (todo : Places) (copied : List (Path × List Str)) : Prop where
  leads : List.Forall₂ (Directs env.toKernel s.disk.fs) s.S todo
  partly : FileSystem.PartlyCopied fs₀ pls todo s.disk.fs
  takes : ∀ n, s.sock.takes n
  told : s.sock.out = out ++ copied.flatMap fileChunks
  whole : ∀ f ∈ copied, f.2.flatten = contentAt fs₀ f.1
  account : (copied.map Prod.fst ++ todo.flatMap fun ab => fs₀.filesBelow ab.1).Perm
    (pls.flatMap fun pl => fs₀.filesBelow pl.1)

def work (fs : FileSystem) (todo : Places) : Nat := (todo.map fun ab => fs.size ab.1).sum

section Trees

variable {fs₀ : FileSystem} {pls todo : Places} {out : List Chunk} {t : CopyState} {a b : Path}
  {copied : List (Path × List Str)}

theorem Copying.leads_top (h : Copying env fs₀ pls out s ((a,b) :: todo) copied)
    (hS : s.S = pair :: rest) : Directs env.toKernel s.disk.fs pair (a,b) := by
  have hleads := h.leads
  rw [hS] at hleads
  cases hleads with
  | cons hpair _ => exact hpair

theorem Copying.leads_rest (h : Copying env fs₀ pls out s ((a,b) :: todo) copied)
    (hpls : Scattered pls) (hS : s.S = pair :: rest)
    (hmade : FileSystem.MadeAt b s.disk.fs t.disk.fs) :
    List.Forall₂ (Directs env.toKernel t.disk.fs) rest todo := by
  have hleads := h.leads
  rw [hS] at hleads
  cases hleads with
  | cons hpair hrest =>
    obtain ⟨hapart,_⟩ := List.pairwise_cons.mp h.partly.apart
    rw [List.forall₂_iff_zip] at hrest ⊢
    refine ⟨hrest.1,fun {x cd} hmem => ?_⟩
    have hcd : cd ∈ todo := (List.of_mem_zip hmem).2
    refine (hrest.2 hmem).mono hmade.le (hmade.others _ ?_) (hmade.others _ ?_)
    · simpa using h.partly.source_ne hpls (List.mem_cons_of_mem _ hcd) List.mem_cons_self []
    · intro he
      exact (hapart cd hcd).1 ⟨[],by simp [he]⟩

theorem Copying.file {content : Str} {m : Nat} (henv : env.Smooth) (hpls : Scattered pls)
    (h : Copying env fs₀ pls out s ((a,b) :: todo) copied)
    (hnode : fs₀.node a = some (.file content m)) :
    wp (copyRound env) (fun r t => r = none ∧ ∃ ps,
      Copying env fs₀ pls out t todo (copied ++ [(a,ps)])) (fun _ _ => False) s := by
  cases hS : s.S with
  | nil =>
    have hleads := h.leads
    rw [hS] at hleads
    cases hleads
  | cons pair rest =>
    have hpair : Directs env.toKernel s.disk.fs pair (a,b) := h.leads_top hS
    have hcur : s.disk.fs.node a = some (.file content m) := by
      simpa [hnode] using h.partly.source hpls List.mem_cons_self []
    refine wp_copyRound_file henv hS hpair.source hcur hpair.dest hpair.free h.takes
      fun t ps hw ht hps hsock => ⟨rfl,ps,?_⟩
    have hmade : FileSystem.MadeAt b s.disk.fs t.disk.fs := ⟨hpair.free,hw.others⟩
    have hfile : fs₀.fileAt a = some content := by simp [FileSystem.fileAt,hnode]
    refine ⟨?_,h.partly.file hpls hmade hnode hw.node,fun n => ?_,?_,fun f hf => ?_,?_⟩
    · rw [ht]
      exact h.leads_rest hpls hS hmade
    · rw [hsock,Conn.takes_sent (h.takes _)]
      exact h.takes _
    · rw [hsock]
      simp [Conn.sent,h.told,fileChunks,hps]
    · rcases List.mem_append.mp hf with hf | hf
      · exact h.whole f hf
      · obtain rfl := List.mem_singleton.mp hf
        simpa [contentAt,hnode] using hps
    · have haccount := h.account
      rw [List.flatMap_cons,← List.append_assoc] at haccount
      refine List.Perm.trans ?_ haccount
      rw [List.map_append]
      exact ((FileSystem.filesBelow_file hfile).symm.append_left _).append_right _

theorem Copying.dir {m : Nat} (henv : env.Smooth) (hpls : Scattered pls)
    (h : Copying env fs₀ pls out s ((a,b) :: todo) copied) (hnode : fs₀.node a = some (.dir m)) :
    wp (copyRound env) (fun r t => r = none ∧ ∃ ns : List Name, ns.Perm (fs₀.children a) ∧
      Copying env fs₀ pls out t ((ns.map fun c => (a ++ [c],b ++ [c])) ++ todo) copied)
      (fun _ _ => False) s := by
  cases hS : s.S with
  | nil =>
    have hleads := h.leads
    rw [hS] at hleads
    cases hleads
  | cons pair rest =>
    have hpair : Directs env.toKernel s.disk.fs pair (a,b) := h.leads_top hS
    have hcur : s.disk.fs.node a = some (.dir m) := by
      simpa [hnode] using h.partly.source hpls List.mem_cons_self []
    obtain ⟨⟨habs₁,hnul₁⟩,habs₂,hnul₂⟩ := hpair.dirs (FileSystem.isDir_iff.mpr ⟨m,hcur⟩)
    obtain ⟨p,c,hspot,hb,_⟩ := Kernel.spot_of_glance_free hpair.dest hpair.free
    simp only at hb
    subst hb
    refine wp_copyRound_dir henv hS hpair.source hcur habs₁ habs₂ hnul₂ hpair.dest hpair.free
      fun t ns hfs hsock hperm hstack => ?_
    have hput := Change.node_put (FileSystem.canPut_free (Kernel.spot_name hspot) hpair.free
      (n := .dir (env.masked defaultMode)))
    have hmade : FileSystem.MadeAt (p ++ [c]) s.disk.fs t.disk.fs :=
      ⟨hpair.free,fun q hq => by rw [hfs,hput,if_neg hq]⟩
    have hdest : t.disk.fs.node (p ++ [c]) = some (.dir (env.masked defaultMode)) := by
      rw [hfs,hput,if_pos rfl]
    have hbelow : ∀ r, t.disk.fs.node (a ++ r) = fs₀.node (a ++ r) := by
      intro r
      rw [hmade.others _ (h.partly.source_ne hpls List.mem_cons_self List.mem_cons_self r)]
      exact h.partly.source hpls List.mem_cons_self r
    have hchildren : ns.Perm (fs₀.children a) := by
      refine hperm.trans ((List.perm_ext_iff_of_nodup (t.disk.fs.nodup_children a)
        (fs₀.nodup_children a)).mpr fun d => ?_)
      rw [FileSystem.mem_children,FileSystem.mem_children,FileSystem.has,FileSystem.has,hbelow]
    refine ⟨rfl,ns,hchildren,?_,h.partly.dir hpls hmade hnode hdest hchildren,?_,?_,h.whole,?_⟩
    · rw [hstack]
      refine List.rel_append ?_ (h.leads_rest hpls hS hmade)
      rw [List.forall₂_map_left_iff,List.forall₂_map_right_iff,List.forall₂_same]
      intro d hd
      have hhas : t.disk.fs.has (a ++ [d]) := FileSystem.mem_children.mp (hperm.mem_iff.mp hd)
      have hproper := FileSystem.proper_of_has hhas
      have hsource := Kernel.glance_le hmade.le hpair.source
      have hcur' : t.disk.fs.node a = some (.dir m) := hmade.le _ _ hcur
      have hglance := Kernel.follow_of_glance (Kernel.glance_le hmade.le hpair.dest) hdest (by simp)
      refine ⟨?_,?_,hhas,?_,fun _ =>
        ⟨⟨absolute_pathConcat habs₁,?_⟩,absolute_pathConcat habs₂,?_⟩⟩
      · rw [Kernel.glance_child hnul₁ hproper (pathConcat_shape _ _)
          (Kernel.follow_of_glance hsource hcur' (by simp)) hcur',if_pos (henv.permits _ _ _)]
      · rw [Kernel.glance_child hnul₂ hproper (pathConcat_shape _ _) hglance hdest,
          if_pos (henv.permits _ _ _)]
      · change ¬ t.disk.fs.has (p ++ [c] ++ [d]) = true
        rw [FileSystem.has,hmade.free_below d []]
        exact Bool.false_ne_true
      · exact nulFree_pathConcat hnul₁ hproper.2.2.1
      · exact nulFree_pathConcat hnul₂ hproper.2.2.1
    · rw [hsock]
      exact h.takes
    · rw [hsock]
      exact h.told
    · have hthere : fs₀.has a := FileSystem.has_iff.mpr ⟨_,hnode⟩
      have hnofile : fs₀.fileAt a = none := by simp [FileSystem.fileAt,hnode]
      have hfiles := FileSystem.filesBelow_children hthere hchildren
      rw [hnofile,Option.isSome_none,if_neg Bool.false_ne_true,List.nil_append] at hfiles
      refine List.Perm.trans ?_ h.account
      rw [List.flatMap_append,List.flatMap_map,List.flatMap_cons]
      exact (hfiles.symm.append_right _).append_left _

theorem copyRounds_end (henv : env.Smooth) (hlinks : fs₀.NoLinks) (hpls : Scattered pls)
    (hthere : ∀ ab ∈ todo, fs₀.has ab.1) (h : Copying env fs₀ pls out s todo copied) :
    Control.Ends (copyRound env)
      (fun e t => e = .finished ∧ ∃ copied, Copying env fs₀ pls out t [] copied)
      (fun _ _ => False) s := by
  generalize hn : work fs₀ todo = n
  induction n using Nat.strongRecOn generalizing s todo copied with
  | ind n ih =>
    refine Control.Ends.of_round ?_
    cases todo with
    | nil =>
      have hS : s.S = [] := by
        have hleads := h.leads
        cases hs : s.S with
        | nil => rfl
        | cons pair rest =>
          rw [hs] at hleads
          cases hleads
      unfold copyRound
      simp only [wp_bind,wp_get,hS,wp_pure]
      exact ⟨rfl,copied,h⟩
    | cons ab todo =>
      obtain ⟨a,b⟩ := ab
      have hhas : fs₀.has a := hthere (a,b) List.mem_cons_self
      have hrest : ∀ ab ∈ todo, fs₀.has ab.1 := fun ab hab => hthere ab (List.mem_cons_of_mem _ hab)
      obtain ⟨node,hnode⟩ := FileSystem.has_iff.mp hhas
      cases node with
      | link target => exact absurd hnode (hlinks a target)
      | file content m =>
        refine wp_mono (h.file henv hpls hnode) (fun r t ht => ?_) fun _ _ hf => hf
        obtain ⟨rfl,ps,ht⟩ := ht
        refine ih (work fs₀ todo) ?_ hrest ht rfl
        have hpos := FileSystem.size_pos hhas
        rw [← hn]
        simp only [work,List.map_cons,List.sum_cons]
        omega
      | dir m =>
        refine wp_mono (h.dir henv hpls hnode) (fun r t ht => ?_) fun _ _ hf => hf
        obtain ⟨rfl,ns,hns,ht⟩ := ht
        refine ih _ ?_ (fun ab hab => ?_) ht rfl
        · rw [← hn]
          simp only [work,List.map_cons,List.sum_cons,List.map_append,List.sum_append,List.map_map]
          rw [FileSystem.size_children hhas hns]
          simp only [Function.comp_def]
          omega
        · rcases List.mem_append.mp hab with hab | hab
          · obtain ⟨c,hc,rfl⟩ := List.mem_map.mp hab
            exact FileSystem.mem_children.mp (hns.mem_iff.mp hc)
          · exact hrest ab hab

end Trees

theorem count_eof {copied : List (Path × List Str)}
    (h : ∀ f ∈ copied, f.2.flatten.length < EOF_ind) :
    (copied.flatMap fileChunks).count (.u64 EOF_ind) = copied.length := by
  induction copied with
  | nil => rfl
  | cons f copied ih =>
    have hrest := ih fun f' hf' => h f' (List.mem_cons_of_mem _ hf')
    have hnone := eof_not_mem_of_lt (h f List.mem_cons_self) (Nat.le_refl _)
    rw [List.flatMap_cons,List.count_append,hrest,fileChunks,List.count_append,
      List.count_eq_zero.mpr hnone]
    simp [Nat.add_comm]

theorem maincopy_of_ends {P : CopyState → Prop} (hopen : ∀ n, s.sock.takes n)
    (h : Control.Ends (copyRound env) (fun e t => e = .finished ∧ P t) (fun _ _ => False)
      { s with sock := s.sock.sent [.u64 s.counts.tFiles,.u64 s.counts.tSize] })
    (hP : ∀ t, P t → ∀ n, t.sock.takes n) :
    ∃ n t u, maincopy env n s = .ok (some .finished) t ∧ P u ∧ t.disk = u.disk ∧
      t.sock.out = u.sock.out ++ [.u64 EOFs_ind,.u8 RESPONSE_OK] := by
  obtain ⟨n,hn⟩ := h
  have hrun : wp (maincopy env n) (fun r t => r = some .finished ∧ ∃ u, P u ∧ t.disk = u.disk ∧
      t.sock.out = u.sock.out ++ [.u64 EOFs_ind,.u8 RESPONSE_OK]) (fun _ _ => False) s := by
    unfold maincopy copyAll announce
    simp only [wp_bind,wp_attempt,wp_get]
    rw [wp_send_iff (by simp [Chunk.encode,littleEndian])]
    refine ⟨fun htakes => ?_,fun hfull => absurd (hopen _) hfull⟩
    rw [wp_send_iff (by simp [Chunk.encode,littleEndian])]
    refine ⟨fun _ => ?_,fun hfull => absurd ((Conn.takes_sent htakes).mpr (hopen _)) hfull⟩
    simp only [Conn.sent_sent]
    refine wp_mono hn (fun r u hu => ?_) fun _ _ hf => hf.elim
    obtain ⟨e,rfl,rfl,hu⟩ := hu
    simp only [wp_bind]
    rw [wp_send_iff (by simp [Chunk.encode,littleEndian])]
    refine ⟨fun htakes => ?_,fun hfull => absurd (hP u hu 1) hfull⟩
    change wp (send (.u8 RESPONSE_OK)) _ _ _
    rw [wp_send_iff (by simp [Chunk.encode])]
    refine ⟨fun _ => ?_,fun hfull => absurd ((Conn.takes_sent htakes).mpr (hP u hu _)) hfull⟩
    refine ⟨rfl,u,hu,rfl,?_⟩
    change u.sock.out ++ [.u64 EOFs_ind] ++ [.u8 RESPONSE_OK] = _
    simp
  obtain ⟨r,t,hx,rfl,u,hu,hdisk,hout⟩ := ok_of_wp hrun
  exact ⟨n,t,u,hx,hu,hdisk,hout⟩

/-- Every tree comes to stand at its destination, with what its files hold and their modes, and
nothing else is changed. The client is told of each file once, and the marker ends each. -/
theorem maincopy_copies_trees {fs : FileSystem} {inp : Str} {pairs : List Pair} {pls : Places}
    {m : Str → StsSz} {counts : StsSz} (henv : env.Smooth) (hlinks : fs.NoLinks)
    (hpls : Scattered pls) (hleads : List.Forall₂ (Directs env.toKernel fs) pairs pls) :
    ∃ n t, ∃ copied : List (Path × List Str),
      maincopy env n (.start fs inp pairs m counts) = .ok (some .finished) t ∧
      (∀ pl ∈ pls, ∀ r, Like (fs.node (pl.1 ++ r)) (t.disk.fs.node (pl.2 ++ r))) ∧
      (∀ q, (∀ pl ∈ pls, ¬ pl.2 <+: q) → t.disk.fs.node q = fs.node q) ∧
      (copied.map Prod.fst).Perm (pls.flatMap fun pl => fs.filesBelow pl.1) ∧
      (∀ f ∈ copied, f.2.flatten = contentAt fs f.1) ∧
      t.sock.out = [.u64 counts.tFiles,.u64 counts.tSize] ++ copied.flatMap fileChunks ++
        [.u64 EOFs_ind,.u8 RESPONSE_OK] ∧
      ((∀ q, (contentAt fs q).length < EOF_ind) → (copied.flatMap fileChunks).count (.u64 EOF_ind) =
        (pls.flatMap fun pl => fs.filesBelow pl.1).length) := by
  have hstack : Scattered pls.reverse := hpls.perm (List.reverse_perm pls).symm
  have hopen : ∀ n, (CopyState.start fs inp pairs m counts).sock.takes n :=
    fun n => ⟨rfl,by simp [CopyState.start]⟩
  have hbegin : Copying env fs pls.reverse [.u64 counts.tFiles,.u64 counts.tSize]
      { CopyState.start fs inp pairs m counts with
        sock := (CopyState.start fs inp pairs m counts).sock.sent
          [.u64 counts.tFiles,.u64 counts.tSize] } pls.reverse [] := by
    refine ⟨?_,FileSystem.partlyCopied_start hstack,fun n => ?_,rfl,by simp,List.Perm.refl _⟩
    · exact List.forall₂_reverse_iff.mpr hleads
    · exact (Conn.takes_sent (hopen _)).mpr (hopen _)
  have hthere : ∀ ab ∈ pls.reverse, fs.has ab.1 := fun ab hab =>
    there_of_leads hleads ab (List.mem_reverse.mp hab)
  obtain ⟨n,t,u,hrun,⟨copied,hu⟩,hdisk,hout⟩ := maincopy_of_ends hopen
    (copyRounds_end henv hlinks hstack hthere hbegin) fun u hu => hu.elim fun _ h => h.takes
  have hperm : (copied.map Prod.fst).Perm (pls.flatMap fun pl => fs.filesBelow pl.1) := by
    have haccount := hu.account
    rw [List.flatMap_nil,List.append_nil] at haccount
    exact haccount.trans ((List.reverse_perm pls).flatMap_right _)
  refine ⟨n,t,copied,hrun,fun pl hpl r => ?_,fun q hq => ?_,hperm,hu.whole,?_,fun hsize => ?_⟩
  · rw [hdisk]
    exact hu.partly.done pl (List.mem_reverse.mpr hpl) r (by simp)
  · rw [hdisk]
    exact hu.partly.others q fun pl hpl => hq pl (List.mem_reverse.mp hpl)
  · rw [hout,hu.told]
  · have hcount := count_eof fun f hf => hu.whole f hf ▸ hsize f.1
    rw [hcount,← hperm.length_eq,List.length_map]

theorem smooth_calm (unread : Byte) : (CopyEnv.calm unread).Smooth :=
  ⟨⟨fun _ => rfl,fun _ => by simp [CopyEnv.calm]⟩,fun _ _ _ => rfl,
    fun h => by simp [CopyEnv.calm] at h⟩

/-- A directory with a file in it, and another file. -/
def treeAndFile : FileSystem :=
  .ofEntries [([],.dir 0o755),([text ['d']],.dir 0o755),
    ([text ['d'],text ['f']],.file (text ['x']) 0o600),([text ['g']],.file (text ['y']) 0o644)]
    (by decide)

theorem noLinks_treeAndFile : treeAndFile.NoLinks := FileSystem.noLinks_ofEntries (by simp)

theorem maincopy_copies_two : ∃ n t, maincopy (.calm 0) n (.start treeAndFile []
      [(text ['/','d'],text ['/','e']),(text ['/','g'],text ['/','h'])] (fun _ => ⟨0,0,0⟩) ⟨2,1,2⟩) =
        .ok (some .finished) t ∧
      t.disk.fs.node [text ['e'],text ['f']] = some (.file (text ['x']) 0o600) := by
  obtain ⟨n,t,_,hrun,htrees,_⟩ := @maincopy_copies_trees (.calm 0) treeAndFile []
    [(text ['/','d'],text ['/','e']),(text ['/','g'],text ['/','h'])]
    [([text ['d']],[text ['e']]),([text ['g']],[text ['h']])] (fun _ => ⟨0,0,0⟩) ⟨2,1,2⟩
    (smooth_calm 0) noLinks_treeAndFile (by unfold Scattered; decide)
    (.cons ⟨by decide +kernel,by decide +kernel,by decide +kernel,by decide +kernel,
        fun _ => by decide⟩
      (.cons ⟨by decide +kernel,by decide +kernel,by decide +kernel,by decide +kernel,
        fun _ => by decide⟩ .nil))
  refine ⟨n,t,hrun,?_⟩
  have hfile : treeAndFile.node [text ['d'],text ['f']] = some (.file (text ['x']) 0o600) := by
    decide +kernel
  rcases htrees ([text ['d']],[text ['e']]) List.mem_cons_self [text ['f']] with h | ⟨m,m',h,_⟩
  · exact h.trans hfile
  · rw [List.singleton_append,hfile] at h
    simp at h

/-- From the root as working directory `d` is the same tree, but its directory alone is made, and
the client is told that all went well. -/
theorem maincopy_relative_directory :
    (CopyEnv.calm 0).Smooth ∧ treeAndFile.NoLinks ∧ Scattered [([text ['d']],[text ['e']])] ∧
      (CopyEnv.calm 0).glance treeAndFile (text ['d']) = .ok [text ['d']] ∧
      (CopyEnv.calm 0).glance treeAndFile (text ['/','e']) = .ok [text ['e']] ∧
      treeAndFile.has [text ['d'],text ['f']] ∧ ¬ treeAndFile.has [text ['e']] ∧
      wp (maincopy (.calm 0) 2) (fun r t => r = some .finished ∧
          ¬ t.disk.fs.has [text ['e'],text ['f']] ∧
          t.sock.out = [.u64 1,.u64 1,.u64 EOFs_ind,.u8 RESPONSE_OK]) (fun _ _ => False)
        (.start treeAndFile [] [(text ['d'],text ['/','e'])] (fun _ => ⟨0,0,0⟩) ⟨1,1,1⟩) := by
  refine ⟨smooth_calm 0,noLinks_treeAndFile,by unfold Scattered; decide,?_⟩
  decide +kernel

end RootHelper
