import RootHelper.CopyOutcome
import RootHelper.SourceSafety

/-!
What happens when the client goes away while an answer is awaited. The read is not checked, so the
task goes on with whatever the variable held; nothing is done on the client's behalf exactly for
the values that no action stands for.
-/

set_option autoImplicit false

namespace RootHelper
open Posix Control

/-- The round begun in `s` asks about a conflict and reads no answer. -/
def Unanswered (env : CopyEnv) (s : CopyState) : Prop :=
  (∃ c, conflictAt env s = some c ∧ (s.permanentDecs c.2).val = .NO_PREV_DEC) ∧
    s.sock.hears = false

def Decision.harmless : Decision → Bool
  | CD_SKIP | CD_REN_SRC | CD_REN_DEST | CD_MERGE_RECURSIVE | CD_CANCEL | NO_PREV_DEC => true
  | unknown _ => true
  | _ => false

/-- No change to the file system, no decision kept, no pair pushed. -/
structure NothingDone (S : List Pair) (s t : CopyState) : Prop where
  fs : t.disk.fs = s.disk.fs
  kept : t.permanentDecs = s.permanentDecs
  stack : t.S = S

variable {env : CopyEnv} {s s₀ : CopyState}

theorem sendSkipInfo_does_nothing (srcI : Str) :
    Leaves (NothingDone s.S s) (sendSkipInfo srcI) s := by
  simp only [sendSkipInfo,wp_bind,wp_get]
  refine wp_send (fun k _ _ => ?_) fun k _ => ⟨rfl,rfl,rfl⟩
  refine wp_send (fun k _ _ => ?_) fun k _ => ⟨rfl,rfl,rfl⟩
  exact wp_send (fun k _ _ => ⟨rfl,rfl,rfl⟩) fun k _ => ⟨rfl,rfl,rfl⟩

theorem wp_readStringWithLen_lost {k : Conn} {Q : Str → Conn → Prop} {E : Stop → Conn → Prop}
    (hlost : k.hears = false) (hE : ∀ k', E .threadExit k') : wp readStringWithLen Q E k := by
  refine wp_readStringWithLen (fun name hopen hname => ?_) fun k' _ => hE k'
  have hempty : k.inp = [] := by simpa [Conn.hears,hopen] using hlost
  simp [hempty,nextString] at hname

theorem handleConflict_does_nothing {srcI destI : Str} {dec : Decision} {t : CflType}
    (hdec : dec.harmless) (hlost : s.sock.hears = false) :
    Leaves (NothingDone s.S s) (handleConflict env srcI destI dec t) s := by
  have hnot : dec.isForAll = false := by
    cases dec <;> first | rfl | simp [Decision.harmless] at hdec
  have hrecord : recordDecision dec t = pure () := by simp [recordDecision,hnot]
  unfold handleConflict
  rw [hrecord,Leaves,wp_bind,wp_pure]
  cases dec with
  | CD_SKIP => exact sendSkipInfo_does_nothing srcI
  | CD_REN_SRC =>
    simp only [wp_bind,onSock,wp_run]
    exact wp_readStringWithLen_lost hlost fun _ => ⟨rfl,rfl,rfl⟩
  | CD_REN_DEST =>
    simp only [wp_bind,onSock,wp_run]
    exact wp_readStringWithLen_lost hlost fun _ => ⟨rfl,rfl,rfl⟩
  | CD_MERGE_RECURSIVE => exact ⟨rfl,rfl,rfl⟩
  | CD_CANCEL => exact ⟨rfl,rfl,rfl⟩
  | NO_PREV_DEC => exact ⟨rfl,rfl,rfl⟩
  | unknown code => exact ⟨rfl,rfl,rfl⟩
  | _ => simp [Decision.harmless] at hdec

theorem unanswered_does_nothing {pair : Pair} {t : CflType} (hlost : s.sock.hears = false)
    (hbyte : (Decision.ofByte (env.unread s.questions)).harmless) :
    Leaves (NothingDone s.S s) (do
      let dec ← waitConflictOrErrorDec env pair.1 pair.2 true
      handleConflict env pair.1 pair.2 (.ofByte dec) t) s := by
  rw [Leaves,wp_bind]
  refine wp_waitConflictOrErrorDec (fun k _ hc hi => ?_) fun k _ => ⟨rfl,rfl,rfl⟩
  have hanswer : answerAt env s = env.unread s.questions := by simp [answerAt,hlost]
  have hk : k.hears = false := by
    rw [hlost] at hi
    simpa [Conn.hears,hc,hi] using hlost
  rw [hanswer]
  have hdone := @handleConflict_does_nothing env { s with sock := k, questions := s.questions+1 }
    pair.1 pair.2 _ t hbyte hk
  exact wp_mono hdone (fun _ u h => ⟨h.fs,h.kept,h.stack⟩) fun _ u h => ⟨h.fs,h.kept,h.stack⟩

theorem copyRound_does_nothing (h : Unanswered env s)
    (hbyte : (Decision.ofByte (env.unread s.questions)).harmless) :
    Leaves (NothingDone s.S.tail s) (copyRound env) s := by
  obtain ⟨⟨c,hc,hask⟩,hlost⟩ := h
  cases hS : s.S with
  | nil => simp [conflictAt,hS] at hc
  | cons pair rest =>
    have hfs : (env.checked s.disk pair).fs = s.disk.fs := (checked_quiet s.disk pair).fs_eq
    have hsame : ∀ {t}, conflictAt env s = some (pair,t) → c.2 = t := by
      intro t ht
      rw [hc] at ht
      rw [Option.some.inj ht]
    refine wp_copyRound_cases hS (fun hgone => ?_) (fun _ _ _ h => ⟨h.fs,h.kept,h.stack⟩)
      (fun _ _ _ _ hfree => ?_) (fun t _ _ info => ?_) fun t ht hkept => ?_
    · simp [conflictAt,hS,hgone] at hc
    · simp [conflictAt,hS,hfree] at hc
    · have hdone := @unanswered_does_nothing env { env.begins s pair rest with lastCEInfo := info }
        pair t hlost hbyte
      exact wp_mono hdone (fun _ u h => ⟨h.fs.trans hfs,h.kept,h.stack⟩)
        fun _ u h => ⟨h.fs.trans hfs,h.kept,h.stack⟩
    · rw [hsame ht] at hask
      exact absurd hask hkept

/-- From the lost answer in `s` on: nothing is done for its question, no decision is kept any more,
and unless the client had left one for all that deletes or renames, all that is there stays. -/
structure NoActionTaken (env : CopyEnv) (s : CopyState) : Prop where
  here : NothingDone s.S.tail s (final (copyRound env) s)
  decisions : ∀ t, Reached (copyRound env) (fun _ => True) s t → t.permanentDecs = s.permanentDecs
  files : (∀ k, (s.permanentDecs k).val.actsOnDest = false) →
    ∀ t, Reached (copyRound env) (fun _ => True) s t → ∀ r, s.disk.fs.has r →
      (final (copyRound env) t).disk.fs.node r = s.disk.fs.node r

theorem Decision.not_acts_of_harmless {d : Decision} (h : d.harmless) :
    d.isForAll = false ∧ (d.actsOnDest → d = .CD_REN_DEST) := by
  cases d <;> simp_all [Decision.harmless,Decision.isForAll,Decision.actsOnDest]

theorem final_eq {t : CopyState} {r : Option Ending} (h : copyRound env s = .ok r t) :
    final (copyRound env) s = t := by
  simp [final,h]

theorem copyRound_leaves_files (hlost : s.sock.hears = false)
    (hbyte : Unanswered env s → (Decision.ofByte (env.unread s.questions)).harmless)
    (hkept : ∀ k, (s.permanentDecs k).val.actsOnDest = false) {r : Path} (hr : s.disk.fs.has r) :
    (final (copyRound env) s).disk.fs.node r = s.disk.fs.node r := by
  have hdec : ∀ d, decisionAt env s = some d → d.actsOnDest → d = .CD_REN_DEST := by
    intro d hd hacts
    obtain ⟨c,hc,rfl⟩ := Option.map_eq_some_iff.mp hd
    split_ifs at hacts ⊢ with hask
    · have hanswer : answerAt env s = env.unread s.questions := by simp [answerAt,hlost]
      rw [hanswer] at hacts ⊢
      exact (Decision.not_acts_of_harmless (hbyte ⟨⟨c,hc,hask⟩,hlost⟩)).2 hacts
    · simp [hkept] at hacts
  obtain ⟨es,_,hist⟩ := leaves_iff.mp (@copyRound_since env s)
  refine hist.node_eq ?_
  refine hist.all fun f e he ht => ?_
  obtain ⟨c,hc,ht⟩ := ht
  cases he c hc with
  | makes _ hfree =>
    obtain rfl : r = _ := ht
    exact hfree hr
  | deletes _ hd =>
    rcases hd with hd | hd
    · exact absurd (hdec _ hd rfl) (by simp)
    · exact absurd (hdec _ hd rfl) (by simp)
  | renames _ _ hname => simp [newNameAt,hlost] at hname
  | renamesFree _ hd => exact absurd (hdec _ hd rfl) (by simp)

/-- What a lost client leaves the later rounds with. -/
structure Lost (s u : CopyState) : Prop where
  deaf : u.sock.hears = false
  kept : u.permanentDecs = s.permanentDecs

theorem Lost.round {u v : CopyState} (h : Lost s u) (hv : copyRound env u = .ok none v)
    (hbyte : Unanswered env u → (Decision.ofByte (env.unread u.questions)).harmless) :
    Lost s v := by
  have hout := Outcome.of_round hv
  refine ⟨hout.sock.deaf h.deaf,?_⟩
  rw [hout.kept ?_,h.kept]
  intro hkeeps
  obtain ⟨c,hc,hask,hall⟩ := hkeeps
  have hanswer : answerAt env u = env.unread u.questions := by simp [answerAt,h.deaf]
  rw [hanswer,(Decision.not_acts_of_harmless (hbyte ⟨⟨c,hc,hask⟩,h.deaf⟩)).1] at hall
  simp at hall

/-- When no answer that is lost leaves a value an action stands for, none is taken. -/
theorem maincopy_takes_no_action
    (hbyte : ∀ s, InRun env s₀ s → Unanswered env s →
      (Decision.ofByte (env.unread s.questions)).harmless) :
    (∀ s, InRun env s₀ s → Unanswered env s → NoActionTaken env s) ∧
      ∀ srcI destI s, NothingDone s.S s (final (unsolvableError env srcI destI) s) := by
  refine ⟨fun s hs hun => ?_,fun srcI destI s => ?_⟩
  · have hlost : ∀ t, Reached (copyRound env) (fun _ => True) s t →
        Lost s t ∧ ((∀ k, (s.permanentDecs k).val.actsOnDest = false) →
          ∀ r, s.disk.fs.has r → t.disk.fs.node r = s.disk.fs.node r) := by
      intro t ht
      induction ht with
      | start => exact ⟨⟨hun.2,rfl⟩,fun _ _ _ => rfl⟩
      | @round u v hu _ hv ih =>
        obtain ⟨hl,hfiles⟩ := ih
        refine ⟨hl.round hv (hbyte u (hs.reached hu)),fun hkept r hr => ?_⟩
        have hru : u.disk.fs.has r := by
          rw [FileSystem.has,hfiles hkept r hr]
          exact hr
        have hround := copyRound_leaves_files hl.deaf (hbyte u (hs.reached hu))
          (by rw [hl.kept]; exact hkept) hru
        rw [final_eq hv] at hround
        rw [hround,hfiles hkept r hr]
    refine ⟨leaves_iff.mp (copyRound_does_nothing hun (hbyte s hs hun)),
      fun t ht => (hlost t ht).1.kept,fun hkept t ht r hr => ?_⟩
    obtain ⟨hl,hfiles⟩ := hlost t ht
    have hrt : t.disk.fs.has r := by
      rw [FileSystem.has,hfiles hkept r hr]
      exact hr
    rw [copyRound_leaves_files hl.deaf (hbyte t (hs.reached ht)) (by rw [hl.kept]; exact hkept) hrt]
    exact hfiles hkept r hr
  · have hquiet : Leaves (fun t => NothingDone s.S s t) (unsolvableError env srcI destI) s := by
      unfold unsolvableError
      rw [Leaves,wp_bind]
      refine wp_waitConflictOrErrorDec (fun k _ _ _ => ?_) fun k _ => ⟨rfl,rfl,rfl⟩
      rw [wp_ite]
      exact ⟨fun _ => ⟨rfl,rfl,rfl⟩,fun _ => ⟨rfl,rfl,rfl⟩⟩
    exact leaves_iff.mp hquiet

/-- `/a` onto `/b`, for a client that sends nothing more. -/
def copyForNobody : CopyState :=
  .start twoFiles [] [(text ['/','a'],text ['/','b'])] (fun _ => ⟨0,0,0⟩) ⟨1,0,1⟩

theorem copyForNobody_unanswered (unread : Byte) :
    InRun (.calm unread) copyForNobody (final announce copyForNobody) ∧
      Unanswered (.calm unread) (final announce copyForNobody) := by
  refine ⟨⟨_,rfl,.start⟩,⟨((text ['/','a'],text ['/','b']),.CONFLICT_TYPE_FILE),?_,?_⟩,?_⟩
  · have hasks : conflictAt (.calm 0) (final announce copyForNobody) =
        some ((text ['/','a'],text ['/','b']),.CONFLICT_TYPE_FILE) := by decide +kernel
    exact hasks
  · decide +kernel
  · decide +kernel

/-- When the variable holds 0x01 the file at the destination is deleted. -/
theorem maincopy_acts_unanswered :
    ¬ ∀ s, InRun (.calm 0x01) copyForNobody s → Unanswered (.calm 0x01) s →
      NoActionTaken (.calm 0x01) s := by
  intro h
  obtain ⟨hrun,hun⟩ := copyForNobody_unanswered 0x01
  have hsame := (h _ hrun hun).here.fs
  have hold : (final announce copyForNobody).disk.fs.has [text ['b']] := by decide +kernel
  have hgone : (final (copyRound (.calm 0x01)) (final announce copyForNobody)).disk.fs.has
      [text ['b']] = false := by decide +kernel
  rw [hsame,hold] at hgone
  simp at hgone

theorem maincopy_takes_no_action_skip :
    Unanswered (.calm 0x00) (final announce copyForNobody) ∧
      NoActionTaken (.calm 0x00) (final announce copyForNobody) := by
  obtain ⟨hrun,hun⟩ := copyForNobody_unanswered 0x00
  exact ⟨hun,(maincopy_takes_no_action fun _ _ _ => rfl).1 _ hrun hun⟩

end RootHelper
