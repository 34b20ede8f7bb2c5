import RootHelper.ContentDigests
import RootHelper.SpmcFaults

/-!
The digest of one file, from the thread that reads it and the thread that hashes what has been read.
The plain loop reads the same file with other calls: a read gives fewer bytes than it asks for, or it
fails, wherever the file has it so.
-/

set_option autoImplicit false

namespace RootHelper
open Posix Control

def SPMC_QUEUE_BSIZE : Nat := 32000000

abbrev Piece := { s : Str // s ≠ [] }

/-- None stands where a read fails. At the end of the file the reads may fail as well, in their order. -/
structure FileReads where
  pieces : List (Option Piece)
  atEnd : List Bool

/-- With whether a read has failed. -/
structure OpenFile extends FileReads where
  failed : Bool

def FileReads.opened (r : FileReads) : OpenFile := ⟨r,false⟩

def bytesOf : Option Piece → Str
  | none => []
  | some s => s.1

def FileReads.content (r : FileReads) : Str := r.pieces.flatMap bytesOf

namespace OpenFile

def read (fd : OpenFile) (count : Nat) : Option Str × OpenFile :=
  match fd.pieces with
  | [] =>
    let fails := fd.atEnd.headD false
    (if fails then none else some [],{ fd with atEnd := fd.atEnd.tail, failed := fd.failed || fails })
  | none :: pieces => (none,{ fd with pieces := pieces, failed := true })
  | some s :: pieces =>
    if h : s.1.length ≤ count then (some s.1,{ fd with pieces := pieces })
    else
      (some (s.1.take count),{ fd with pieces := some ⟨s.1.drop count,by simpa using h⟩ :: pieces })

def readTill (fd : OpenFile) (remaining : Nat) : Str × OpenFile :=
  match fd.read remaining with
  | (none,fd) => ([],fd)
  | (some [],fd) => ([],fd)
  | (some (b :: s),fd) =>
    if remaining ≤ s.length + 1 then (b :: s,fd)
    else
      let more := fd.readTill (remaining - (s.length + 1))
      (b :: s ++ more.1,more.2)
termination_by remaining

section Read

variable {count remaining : Nat}

theorem read_cases (fd : OpenFile) (hcount : 0 < count) :
    (fd.pieces = [] ∧ fd.read count = (if fd.atEnd.headD false then none else some [],
      { fd with atEnd := fd.atEnd.tail, failed := fd.failed || fd.atEnd.headD false })) ∨
    (∃ pieces, fd.pieces = none :: pieces ∧
      fd.read count = (none,{ fd with pieces := pieces, failed := true })) ∨
    ∃ s pieces, s ≠ [] ∧ s.length ≤ count ∧ fd.read count = (some s,{ fd with pieces := pieces }) ∧
      fd.content = s ++ pieces.flatMap bytesOf ∧ (none ∈ pieces ↔ none ∈ fd.pieces) := by
  obtain ⟨⟨pieces,atEnd⟩,failed⟩ := fd
  unfold read
  cases pieces with
  | nil => exact .inl ⟨rfl,rfl⟩
  | cons piece pieces =>
    cases piece with
    | none => exact .inr (.inl ⟨pieces,rfl,rfl⟩)
    | some s =>
      refine .inr (.inr ?_)
      by_cases h : s.1.length ≤ count
      · exact ⟨s.1,pieces,s.2,h,dif_pos h,rfl,by simp⟩
      · have hpos : s.1.length ≠ 0 := fun hzero => h (hzero ▸ Nat.zero_le _)
        refine ⟨s.1.take count,_,?_,List.length_take_le _ _,dif_neg h,?_,by simp⟩
        · rw [← List.length_pos_iff,List.length_take]
          omega
        · simp [FileReads.content,bytesOf,← List.append_assoc]

theorem content_read (fd : OpenFile) (hcount : 0 < count) :
    fd.content = (fd.read count).1.getD [] ++ (fd.read count).2.content := by
  obtain ⟨hpieces,hread⟩ | ⟨pieces,hpieces,hread⟩ | ⟨s,pieces,_,_,hread,hcontent,_⟩ :=
    fd.read_cases hcount
  · rw [hread]
    split <;> rfl
  · rw [hread,FileReads.content,hpieces]
    rfl
  · rw [hread]
    exact hcontent

theorem content_readTill (fd : OpenFile) (hpos : 0 < remaining) :
    fd.content = (fd.readTill remaining).1 ++ (fd.readTill remaining).2.content := by
  fun_induction readTill fd remaining with
  | case1 fd remaining fd' hread =>
    have h := fd.content_read hpos
    rw [hread] at h
    exact h
  | case2 fd remaining fd' hread =>
    have h := fd.content_read hpos
    rw [hread] at h
    exact h
  | case3 fd remaining b s fd' hread hfull =>
    have h := fd.content_read hpos
    rw [hread] at h
    exact h
  | case4 fd remaining b s fd' hread hshort more ih =>
    have h := fd.content_read hpos
    rw [hread] at h
    rw [h,ih (by omega),← List.append_assoc]
    rfl

theorem read_whole (fd : OpenFile) (hcount : 0 < count) (hwhole : none ∉ fd.pieces) :
    (fd.content = [] ∧ fd.read count = (if fd.atEnd.headD false then none else some [],
      { fd with atEnd := fd.atEnd.tail, failed := fd.failed || fd.atEnd.headD false })) ∨
    ∃ s pieces, s ≠ [] ∧ s.length ≤ count ∧ fd.read count = (some s,{ fd with pieces := pieces }) ∧
      fd.content = s ++ pieces.flatMap bytesOf ∧ none ∉ pieces := by
  obtain ⟨hpieces,hread⟩ | ⟨pieces,hpieces,_⟩ | ⟨s,pieces,hne,hle,hread,hcontent,hnone⟩ :=
    fd.read_cases hcount
  · refine .inl ⟨?_,hread⟩
    rw [FileReads.content,hpieces]
    rfl
  · rw [hpieces] at hwhole
    simp at hwhole
  · exact .inr ⟨s,pieces,hne,hle,hread,hcontent,fun h => hwhole (hnone.mp h)⟩

theorem readTill_whole (fd : OpenFile) (hpos : 0 < remaining) (hwhole : none ∉ fd.pieces) :
    (fd.readTill remaining).1 = fd.content.take remaining ∧
      none ∉ (fd.readTill remaining).2.pieces ∧
      (fd.readTill remaining).2.atEnd =
        (if fd.content.length < remaining then fd.atEnd.tail else fd.atEnd) ∧
      (fd.readTill remaining).2.failed =
        (fd.failed || (decide (fd.content.length < remaining) && fd.atEnd.headD false)) := by
  fun_induction readTill fd remaining with
  | case1 fd remaining fd' hread =>
    obtain ⟨hcontent,hend⟩ | ⟨s,pieces,_,_,hsome,_⟩ := fd.read_whole hpos hwhole
    · obtain rfl := (Prod.ext_iff.mp (hread.symm.trans hend)).2
      simp [hcontent,hpos,hwhole]
    · cases hread.symm.trans hsome
  | case2 fd remaining fd' hread =>
    obtain ⟨hcontent,hend⟩ | ⟨s,pieces,hne,_,hsome,_⟩ := fd.read_whole hpos hwhole
    · obtain rfl := (Prod.ext_iff.mp (hread.symm.trans hend)).2
      simp [hcontent,hpos,hwhole]
    · cases hread.symm.trans hsome
      exact absurd rfl hne
  | case3 fd remaining b s fd' hread hfull =>
    obtain ⟨_,hend⟩ | ⟨t,pieces,_,hle,hsome,hcontent,hnone⟩ := fd.read_whole hpos hwhole
    · split at hend <;> cases hread.symm.trans hend
    · cases hread.symm.trans hsome
      have hlength : (b :: s).length = remaining := Nat.le_antisymm hle hfull
      have hlong : ¬ fd.content.length < remaining := by
        rw [hcontent,List.length_append]
        omega
      rw [hcontent,List.take_left' hlength,← hcontent,if_neg hlong]
      simp [hnone,hlong]
  | case4 fd remaining b s fd' hread hshort more ih =>
    obtain ⟨_,hend⟩ | ⟨t,pieces,_,hle,hsome,hcontent,hnone⟩ := fd.read_whole hpos hwhole
    · split at hend <;> cases hread.symm.trans hend
    · cases hread.symm.trans hsome
      obtain ⟨hbytes,hpieces,hatEnd,hfailed⟩ := ih (by omega) hnone
      have hrest : fd.content.length < remaining ↔
          (pieces.flatMap bytesOf).length < remaining - (s.length + 1) := by
        rw [hcontent,List.length_append,List.length_cons]
        omega
      refine ⟨?_,hpieces,?_,?_⟩
      · rw [hcontent,List.take_append,List.take_of_length_le hle]
        exact congrArg (b :: s ++ ·) hbytes
      · simp only [hrest]
        exact hatEnd
      · simp only [hrest]
        exact hfailed

end Read

/-- The blocks the thread that reads makes nodes of; the first call and those of its loop end on the
same results, a negative one not being among them. -/
def readChunks (fd : OpenFile) : List Str × OpenFile :=
  if _ : (fd.readTill SPMC_QUEUE_BSIZE).1 = [] then ([],(fd.readTill SPMC_QUEUE_BSIZE).2)
  else
    let more := (fd.readTill SPMC_QUEUE_BSIZE).2.readChunks
    ((fd.readTill SPMC_QUEUE_BSIZE).1 :: more.1,more.2)
termination_by fd.content.length
decreasing_by
  rename_i h
  have hcontent := congrArg List.length (fd.content_readTill (by decide : 0 < SPMC_QUEUE_BSIZE))
  have hpos := List.length_pos_iff.mpr h
  rw [List.length_append] at hcontent
  omega

def readBlocks (fd : OpenFile) : List Str × Bool :=
  match _ : fd.read HASH_BLOCK_SIZE with
  | (none,_) => ([],true)
  | (some [],_) => ([],false)
  | (some (b :: s),fd) =>
    let more := fd.readBlocks
    ((b :: s) :: more.1,more.2)
termination_by fd.content.length
decreasing_by
  rename_i fd' hread
  have hcontent := congrArg List.length (fd'.content_read (by decide : 0 < HASH_BLOCK_SIZE))
  rw [hread,List.length_append] at hcontent
  simp at hcontent
  omega

theorem readChunks_whole (fd : OpenFile) (hwhole : none ∉ fd.pieces) :
    fd.readChunks.1.flatten = fd.content ∧
      fd.readChunks.2.failed = (fd.failed || fd.atEnd.headD false ||
        (decide (fd.content.length % SPMC_QUEUE_BSIZE ≠ 0) && fd.atEnd.tail.headD false)) := by
  have hpos : 0 < SPMC_QUEUE_BSIZE := by decide
  fun_induction readChunks fd with
  | case1 fd hnone =>
    obtain ⟨hbytes,_,_,hfailed⟩ := fd.readTill_whole hpos hwhole
    have hempty : fd.content = [] := by
      rw [hbytes,List.take_eq_nil_iff] at hnone
      exact hnone.resolve_left (by decide)
    rw [hfailed,hempty]
    simp [hpos]
  | case2 fd hsome more ih =>
    obtain ⟨hbytes,hpieces,hatEnd,hfailed⟩ := fd.readTill_whole hpos hwhole
    have hcontent := fd.content_readTill hpos
    obtain ⟨hrest,hmore⟩ := ih hpieces
    refine ⟨?_,hmore.trans ?_⟩
    · rw [List.flatten_cons,hrest]
      exact hcontent.symm
    · have hlength := congrArg List.length hcontent
      rw [List.length_append,hbytes,List.length_take] at hlength
      rw [hatEnd,hfailed]
      by_cases hshort : fd.content.length < SPMC_QUEUE_BSIZE
      · have hzero : (fd.readTill SPMC_QUEUE_BSIZE).2.content.length = 0 := by omega
        have hne : fd.content.length ≠ 0 := by
          intro hempty
          rw [hbytes,List.length_eq_zero_iff.mp hempty] at hsome
          simp at hsome
        simp [hshort,hzero,Nat.mod_eq_of_lt hshort,hne]
      · have hless : (fd.readTill SPMC_QUEUE_BSIZE).2.content.length =
            fd.content.length - SPMC_QUEUE_BSIZE := by omega
        rw [Nat.mod_eq_sub_mod (Nat.le_of_not_lt hshort),hless]
        simp [hshort]

theorem readBlocks_whole (fd : OpenFile) :
    (fd.readBlocks.2 = true ↔ none ∈ fd.pieces ∨ fd.atEnd.headD false = true) ∧
      (fd.readBlocks.2 = false → fd.readBlocks.1.flatten = fd.content) ∧
      ∀ s ∈ fd.readBlocks.1, s ≠ [] := by
  have hpos : 0 < HASH_BLOCK_SIZE := by decide
  fun_induction readBlocks fd with
  | case1 fd fd' hread =>
    refine ⟨iff_of_true rfl ?_,by simp,by simp⟩
    obtain ⟨_,hend⟩ | ⟨pieces,hpieces,_⟩ | ⟨s,pieces,_,_,hsome,_⟩ := fd.read_cases hpos
    · refine .inr ?_
      by_contra hfine
      rw [if_neg hfine] at hend
      cases hread.symm.trans hend
    · exact .inl (hpieces ▸ List.mem_cons_self)
    · cases hread.symm.trans hsome
  | case2 fd fd' hread =>
    obtain ⟨hpieces,hend⟩ | ⟨pieces,_,hnone⟩ | ⟨s,pieces,hne,_,hsome,_⟩ := fd.read_cases hpos
    · have hfine : fd.atEnd.headD false = false := by
        by_contra hfails
        rw [if_pos (Bool.eq_true_of_not_eq_false hfails)] at hend
        cases hread.symm.trans hend
      rw [FileReads.content,hpieces,hfine]
      simp
    · cases hread.symm.trans hnone
    · cases hread.symm.trans hsome
      exact absurd rfl hne
  | case3 fd b s fd' hread more ih =>
    obtain ⟨_,hend⟩ | ⟨pieces,_,hnone⟩ | ⟨t,pieces,_,_,hsome,hcontent,hnone⟩ := fd.read_cases hpos
    · split at hend <;> cases hread.symm.trans hend
    · cases hread.symm.trans hnone
    · cases hread.symm.trans hsome
      obtain ⟨hfails,hflat,hne⟩ := ih
      refine ⟨by rw [← hnone]; exact hfails,fun hfine => ?_,?_⟩
      · rw [hcontent]
        exact congrArg (b :: s ++ ·) (hflat hfine)
      · intro t ht
        obtain rfl | ht := List.mem_cons.mp ht
        · simp
        · exact hne t ht

/-- What an `open` for the plain loop stands for. -/
def reading (fd : OpenFile) : Reading := ⟨fd.readBlocks.1,fd.readBlocks_whole.2.2,fd.readBlocks.2⟩

end OpenFile

open SpmcQueue in
/-- What has been returned after these steps of the threads; one that hashes and this one, which joins it.
How far the other one is has nothing to do with what is read. -/
def producer_hasher (h : HashFunctions) (opened : Option FileReads) (algo : Byte)
    (schedule : List SpmcThread) : Option Str :=
  match opened with
  | none => some rh_errorHash
  | some reads =>
    match reads.opened.readChunks.1 with
    | [] => some (h.digest (hashLabel algo) [])
    | chunk :: chunks =>
      let q := schedule.foldl step (start 1 chunk chunks)
      if q.producer.place = .finished then
        (q.consumers.find? (·.place = .returned)).map fun consumer =>
          h.digest (hashLabel algo) consumer.processed.flatten
      else none

def Fair (act : Nat → SpmcThread) : Prop :=
  ∀ thread, thread = .producer ∨ thread = .consumer 0 → ∀ n, ∃ m, n ≤ m ∧ act m = thread

/-- Every run that comes to an end has this result, and every run in which both threads go on does so. -/
structure Returns (f : List SpmcThread → Option Str) (result : Str) : Prop where
  only : ∀ schedule r, f schedule = some r → r = result
  ends : ∀ act, Fair act → ∃ n, ∀ m, n ≤ m → f ((List.range m).map act) = some result

section Threads

variable {h : HashFunctions} {algo : Byte} {reads : FileReads}

theorem Returns.unique {f : List SpmcThread → Option Str} {r r' : Str} (hr : Returns f r)
    (hr' : Returns f r') : r = r' := by
  have hfair : Fair fun n => if n % 2 = 0 then .producer else .consumer 0 := by
    rintro thread (rfl | rfl) n
    · exact ⟨2*n,by omega,by simp⟩
    · exact ⟨2*n+1,by omega,by simp⟩
  obtain ⟨n,hends⟩ := hr.ends _ hfair
  exact hr'.only _ _ (hends n (Nat.le_refl n))

theorem anyRun_foldl (q : SpmcQueue) (schedule : List SpmcThread) :
    SpmcQueue.AnyRun q (schedule.foldl SpmcQueue.step q) := by
  induction schedule using List.reverseRecOn with
  | nil => exact Reachable.start
  | append_singleton schedule thread ih =>
    rw [List.foldl_append]
    exact ih.step thread

theorem exists_joined (chunk : Str) (chunks : List Str) {act : Nat → SpmcThread} (hfair : Fair act) :
    ∃ n, ∀ m, n ≤ m → SpmcQueue.Complete (chunk :: chunks)
      (((List.range m).map act).foldl SpmcQueue.step (.start 1 chunk chunks)) := by
  have hrun : ∀ n, ((List.range (n+1)).map act).foldl SpmcQueue.step (.start 1 chunk chunks) =
      (((List.range n).map act).foldl SpmcQueue.step (.start 1 chunk chunks)).step (act n) := by
    intro n
    rw [List.range_succ,List.map_append,List.foldl_append]
    rfl
  refine SpmcQueue.exists_complete (by decide) (by decide) rfl (fun n => ⟨hrun n,?_⟩) fun thread hthread =>
    hfair thread ?_
  · have hinv := SpmcQueue.inv_of_single (anyRun_foldl (.start 1 chunk chunks) ((List.range n).map act))
    exact hinv.1.vacates_of_single hinv.2 (act n)
  · cases thread with
    | producer => exact .inl rfl
    | consumer i =>
      obtain rfl : i = 0 := Nat.lt_one_iff.mp hthread
      exact .inr rfl

theorem producer_hasher_returns : Returns (producer_hasher h (some reads) algo)
    (h.digest (hashLabel algo) reads.opened.readChunks.1.flatten) := by
  unfold producer_hasher
  dsimp only
  cases reads.opened.readChunks.1 with
  | nil => exact ⟨fun schedule r hr => (Option.some.inj hr).symm,fun act _ => ⟨0,fun m _ => rfl⟩⟩
  | cons chunk chunks =>
    refine ⟨fun schedule r hr => ?_,fun act hfair => ?_⟩
    · dsimp only at hr
      split at hr
      · obtain ⟨consumer,hfind,rfl⟩ := Option.map_eq_some_iff.mp hr
        have hsound := (SpmcQueue.inv_of_single (anyRun_foldl (.start 1 chunk chunks) schedule)).1.sound
        rw [hsound.whole consumer (List.mem_of_find?_eq_some hfind)
          (by simpa using List.find?_some hfind)]
      · cases hr
    · obtain ⟨n,hends⟩ := exists_joined chunk chunks hfair
      refine ⟨n,fun m hm => ?_⟩
      have hcomplete := hends m hm
      have hinv := (SpmcQueue.inv_of_single (anyRun_foldl (.start 1 chunk chunks)
        ((List.range m).map act))).1
      obtain ⟨c,hc⟩ := hinv.exists_consumer
      have hsome : (SpmcQueue.consumers (((List.range m).map act).foldl SpmcQueue.step
          (.start 1 chunk chunks))).find? (fun c => decide (c.place = .returned)) |>.isSome :=
        List.find?_isSome.mpr ⟨c,hc,decide_eq_true (hcomplete.returned c hc)⟩
      obtain ⟨consumer,hfind⟩ := Option.isSome_iff_exists.mp hsome
      have hmem := List.mem_of_find?_eq_some hfind
      simp only [hcomplete.finished,if_true,hfind,Option.map_some]
      rw [hcomplete.whole consumer hmem (hcomplete.returned consumer hmem)]

def FileReads.Untroubled (r : FileReads) : Prop :=
  none ∉ r.pieces ∧ r.atEnd.headD false = false ∧
    (r.content.length % SPMC_QUEUE_BSIZE ≠ 0 → r.atEnd.tail.headD false = false)

/-- What both ways give is the digest of the whole content while the reads go well, and the mark of an
error where one fails. -/
def HashedAlike (h : HashFunctions) (v : View) (filePath : Str) (algo : Byte) (opened : Option FileReads) :
    Prop :=
  ∃ result, Returns (producer_hasher h opened algo) result ∧
    result = (rh_computeHash h v filePath algo false [] true).returned ∧
    ∀ reads ∈ opened, result =
      if reads.opened.readChunks.2.failed then rh_errorHash else h.digest (hashLabel algo) reads.content

variable {v : View} {filePath : Str} {opened : Option FileReads}

theorem digest_ne_errorHash (halgo : algo.toNat < rh_hash_maxAlgoIndex) (s : Str) :
    h.digest (hashLabel algo) s ≠ rh_errorHash := by
  intro heq
  have hlength := h.length_digest algo s halgo
  have hsizes : ∀ n < rh_hash_maxAlgoIndex, rh_hashSizes.getD n 0 ≠ 1 := by decide
  rw [heq] at hlength
  exact hsizes _ halgo hlength.symm

theorem rh_computeHash_reading (hopen : v.openRead filePath = some reads.opened.reading) :
    (rh_computeHash h v filePath algo false [] true).returned =
      if none ∈ reads.pieces ∨ reads.atEnd.headD false = true then rh_errorHash
      else h.digest (hashLabel algo) reads.content := by
  obtain ⟨hfails,hflat,_⟩ := reads.opened.readBlocks_whole
  split
  · rename_i htrouble
    refine computeHash_returned_unread fun ⟨r,hr,hfine⟩ => ?_
    obtain rfl : reads.opened.reading = r := Option.some.inj (hopen.symm.trans hr)
    exact Bool.false_ne_true (hfine.symm.trans (hfails.mpr htrouble))
  · rename_i hfine
    have hread : reads.opened.readBlocks.2 = false := Bool.eq_false_iff.mpr fun h => hfine (hfails.mp h)
    rw [computeHash_returned_read ⟨_,hopen,hread⟩,fileContent,hopen]
    exact congrArg _ (hflat hread)

theorem not_alike_of_trouble (halgo : algo.toNat < rh_hash_maxAlgoIndex)
    (hopen : v.openRead filePath = some reads.opened.reading)
    (htrouble : none ∈ reads.pieces ∨ reads.atEnd.headD false = true) :
    ¬ HashedAlike h v filePath algo (some reads) := by
  rintro ⟨result,hreturns,hsame,_⟩
  obtain rfl := producer_hasher_returns.unique hreturns
  rw [rh_computeHash_reading hopen,if_pos htrouble] at hsame
  exact digest_ne_errorHash halgo _ hsame

/-- A file is hashed alike in both ways exactly where no read fails: the thread that reads takes a
failure for the end of the file. -/
theorem hashed_alike_iff (halgo : algo.toNat < rh_hash_maxAlgoIndex)
    (hopen : v.openRead filePath = opened.map fun reads => reads.opened.reading) :
    HashedAlike h v filePath algo opened ↔ ∀ reads ∈ opened, reads.Untroubled := by
  cases opened with
  | none =>
    refine iff_of_true ⟨rh_errorHash,⟨?_,fun act _ => ⟨0,fun m _ => rfl⟩⟩,?_,by simp⟩ (by simp)
    · intro schedule r hr
      exact (Option.some.inj hr).symm
    · exact (computeHash_returned_unread fun ⟨r,hr,_⟩ => by simp [hopen] at hr).symm
  | some reads =>
    simp only [Option.mem_def,Option.some.injEq,forall_eq']
    constructor
    · intro halike
      obtain ⟨hwhole,hfirst⟩ := not_or.mp fun htrouble => not_alike_of_trouble halgo hopen htrouble halike
      obtain ⟨result,hreturns,_,hclaimed⟩ := halike
      obtain rfl := producer_hasher_returns.unique hreturns
      refine ⟨hwhole,Bool.eq_false_iff.mpr hfirst,fun hpart => ?_⟩
      by_contra hsecond
      have hfailed : reads.opened.readChunks.2.failed = true := by
        rw [(reads.opened.readChunks_whole hwhole).2]
        exact Bool.or_eq_true_iff.mpr (.inr (Bool.and_eq_true_iff.mpr
          ⟨decide_eq_true hpart,Bool.eq_true_of_not_eq_false hsecond⟩))
      exact digest_ne_errorHash halgo _ ((hclaimed reads rfl).trans (if_pos hfailed))
    · rintro ⟨hwhole,hfirst,hsecond⟩
      obtain ⟨hflat,hfailed⟩ := reads.opened.readChunks_whole hwhole
      refine ⟨_,producer_hasher_returns,?_,?_⟩
      · rw [rh_computeHash_reading hopen,if_neg (not_or.mpr ⟨hwhole,Bool.eq_false_iff.mp hfirst⟩),hflat]
        rfl
      · intro reads' hreads'
        obtain rfl := Option.some.inj hreads'
        have hfine : reads.opened.readChunks.2.failed = false := by
          rw [hfailed]
          refine Bool.or_eq_false_iff.mpr ⟨hfirst,?_⟩
          by_cases hpart : reads.content.length % SPMC_QUEUE_BSIZE = 0
          · exact Bool.and_eq_false_iff.mpr (.inl (decide_eq_false fun hne => hne hpart))
          · exact Bool.and_eq_false_iff.mpr (.inr (hsecond hpart))
        rw [hfine,hflat]
        rfl

def letterReads (fails : Bool) : FileReads :=
  ⟨some ⟨[120],by decide⟩ :: (if fails then [none] else []),[]⟩

def letterView (fails : Bool) : View :=
  { flatView 0 none with openRead := fun _ => some (letterReads fails).opened.reading }

/-- The letter is there to be read. -/
theorem hashed_alike_letter :
    HashedAlike crcHashes (letterView false) [] 0 (some (letterReads false)) :=
  (hashed_alike_iff (by decide) rfl).mpr (by simp [FileReads.Untroubled,letterReads])

/-- What has been read before the failure is taken for the file. -/
theorem failure_hashed : ¬ HashedAlike crcHashes (letterView true) [] 0 (some (letterReads true)) :=
  not_alike_of_trouble (by decide) rfl (.inl (by simp [letterReads]))

end Threads

end RootHelper
