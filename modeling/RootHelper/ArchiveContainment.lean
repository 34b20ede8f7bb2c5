import RootHelper.ArchiveExtraction

/-!
Where an extraction puts things. A directory that is there is never made again, so what matters is
which of the directories above an item are missing and where they would be.
-/

set_option autoImplicit false

namespace RootHelper
open Posix Control

def StopsIn (q path : WStr) : Prop := q = path ∨ ∃ rest, path = q ++ wslash :: rest

theorem StopsIn.trans {q p path : WStr} (h : StopsIn q p) (h' : StopsIn p path) :
    StopsIn q path := by
  rcases h with rfl | ⟨r,rfl⟩
  · exact h'
  · rcases h' with rfl | ⟨r',rfl⟩
    · exact .inr ⟨r,rfl⟩
    · exact .inr ⟨r ++ wslash :: r',by simp⟩

theorem StopsIn.append_left {q path : WStr} (h : StopsIn q path) (x : WStr) :
    StopsIn (x ++ q) (x ++ path) := by
  rcases h with rfl | ⟨r,rfl⟩
  · exact .inl rfl
  · exact .inr ⟨r,by simp⟩

theorem StopsIn.length_le {q path : WStr} (h : StopsIn q path) : q.length ≤ path.length := by
  rcases h with rfl | ⟨r,rfl⟩ <;> simp

theorem stopsIn_take {s : WStr} {i : Nat} (h : s[i]? = some wslash) : StopsIn (s.take i) s := by
  obtain ⟨hi,hs⟩ := List.getElem?_eq_some_iff.mp h
  refine .inr ⟨s.drop (i+1),?_⟩
  rw [← hs,List.getElem_cons_drop,List.take_append_drop]

theorem getElem?_of_reverseFind {s : WStr} {c : UInt32} {i : Nat} (h : reverseFind s c = some i) :
    s[i]? = some c := by
  unfold reverseFind at h
  obtain ⟨j,hj,rfl⟩ := Option.map_eq_some_iff.mp h
  obtain ⟨hlt,hc,_⟩ := List.findIdx?_eq_some_iff_getElem.mp hj
  rw [List.length_reverse] at hlt
  rw [List.getElem_reverse] at hc
  have hin : s.length - 1 - j < s.length := by omega
  rw [List.getElem?_eq_getElem hin]
  simpa using hc

theorem getElem?_of_find {s : WStr} {c : UInt32} {start i : Nat} (h : find s c start = some i) :
    s[i]? = some c := by
  unfold find at h
  obtain ⟨j,hj,rfl⟩ := Option.map_eq_some_iff.mp h
  obtain ⟨hlt,hc,_⟩ := List.findIdx?_eq_some_iff_getElem.mp hj
  rw [List.length_drop] at hlt
  rw [List.getElem_drop] at hc
  have hin : start + j < s.length := by omega
  rw [Nat.add_comm,List.getElem?_eq_getElem hin]
  simpa using hc

theorem stopsIn_of_find (s : WStr) (start : Nat) :
    StopsIn (s.take ((find s wslash start).getD s.length)) s := by
  cases h : find s wslash start with
  | none => exact .inl (by simp)
  | some i => exact stopsIn_take (getElem?_of_find h)

/-- What is made, taken away or opened for writing is inside `dest`. -/
def Confined (cwd : Path) (dest : Str) (e : Event) : Prop :=
  match e.call with
  | .mkdir s _ | .remove s | .unlink s => e.change ≠ none → Inside cwd dest s
  | .openCreate s _ => Inside cwd dest s
  | _ => e.change = none

instance (cwd : Path) (dest : Str) (e : Event) : Decidable (Confined cwd dest e) := by
  unfold Confined
  split <;> infer_instance

/-- There is something where `s` leads. -/
def Occupied (k : Kernel) (fs : FileSystem) (s : Str) : Prop :=
  ∃ sp, k.spot fs s = .ok sp ∧ fs.has sp.place

theorem Occupied.le {k : Kernel} {fs fs' : FileSystem} {s : Str} (h : Occupied k fs s)
    (hle : fs.Le fs') : Occupied k fs' s := by
  obtain ⟨sp,hsp,hhas⟩ := h
  obtain ⟨n,hn⟩ := FileSystem.has_iff.mp hhas
  refine ⟨sp,?_,FileSystem.has_iff.mpr ⟨n,hle _ _ hn⟩⟩
  unfold Kernel.spot at hsp ⊢
  split_ifs at hsp ⊢
  exact Kernel.spotFrom_le hle hsp

theorem Occupied.makeEffect {k : Kernel} {fs : FileSystem} {s : Str} (h : Occupied k fs s) (n : Node)
    (p : Path) (c : Name) (ch : Option Change) : k.makeEffect s n fs ≠ .ok ((p,c),ch) := by
  intro hmake
  obtain ⟨sp,hsp,hhas⟩ := h
  obtain ⟨_,hspot,hfree⟩ := Kernel.makeEffect_ok hmake
  rw [hspot] at hsp
  obtain rfl := Except.ok.inj hsp
  exact hfree hhas

/-- A path a directory may be made at: one that is taken, or inside. -/
def MayMake (sys : System) (dest : Str) (fs : FileSystem) (q : WStr) : Prop :=
  UString q ≠ [] →
    Occupied sys.toKernel fs (nameWindowToUnix2 q) ∨ Inside sys.cwd dest (nameWindowToUnix2 q)

/-- Where an item goes, in a file system where it is to be put: each directory above it is there or
inside `dest`, as is the item itself if it is a folder; a file is inside. -/
structure StaysInside (sys : System) (dest : Str) (fs : FileSystem) (whole : WStr)
    (isDir : Bool) : Prop where
  above : ∀ q, StopsIn q whole → q ≠ whole ∨ isDir → MayMake sys dest fs q
  file : isDir = false → Inside sys.cwd dest (nameWindowToUnix2 whole) ∧
    Inside sys.cwd dest (nameWindowToUnix (nameWindowToUnix2 whole))

/-- From `d` on everything is confined, and what was there at the start still is. -/
def FillsInside (sys : System) (dest : Str) (f₀ : FileSystem) (d t : Disk) : Prop :=
  Grown (fun _ e => Confined sys.cwd dest e) d t ∧ f₀.Le t.fs

variable {sys : System} {dest : Str} {f₀ : FileSystem} {d : Disk}

theorem FillsInside.trans {d t u : Disk} (h : FillsInside sys dest f₀ d t)
    (h' : FillsInside sys dest f₀ t u) : FillsInside sys dest f₀ d u :=
  ⟨trans_of (Grown _) h.1 h'.1,h'.2⟩

theorem FillsInside.refl (h : f₀.Le d.fs) : FillsInside sys dest f₀ d d := ⟨refl_of (Grown _) d,h⟩

theorem FillsInside.since {α : Type} {x : DiskM α} {t : Disk} (h : FillsInside sys dest f₀ d t)
    (hx : Leaves (FillsInside sys dest f₀ t) x t) : Leaves (FillsInside sys dest f₀ d) x t :=
  wp_mono hx (fun _ _ h' => h.trans h') (fun _ _ h' => h.trans h')

theorem createDir_fills {q : WStr} (hle : f₀.Le d.fs) (hq : MayMake sys dest f₀ q) :
    Leaves (FillsInside sys dest f₀ d) (CreateDir sys q) d := by
  unfold CreateDir
  split_ifs with hnil
  · exact FillsInside.refl hle
  · rw [Leaves,wp_bind]
    refine System.wp_perform (fun e => ?_) (fun r ch hk => ?_)
    · exact ⟨grown_failed fun hno => absurd rfl hno,hle⟩
    · obtain ⟨p,c⟩ := r
      obtain ⟨rfl,hspot,hfree⟩ := Kernel.makeEffect_ok hk
      have hin : Inside sys.cwd dest (nameWindowToUnix2 q) := by
        rcases hq hnil with hoccupied | hin
        · exact absurd hk ((hoccupied.le hle).makeEffect _ _ _ _)
        · exact hin
      exact ⟨grown_done fun _ => hin,hle.trans (FileSystem.put_le (Kernel.spot_name hspot) hfree)⟩

theorem createUpwards_fills {path : WStr} (hmay : ∀ q, StopsIn q path → MayMake sys dest f₀ q)
    (n : Nat) {pathName : WStr} (hstop : StopsIn pathName path) (hle : f₀.Le d.fs) :
    Leaves (FillsInside sys dest f₀ d) (createUpwards sys n pathName) d := by
  induction n generalizing pathName d with
  | zero => exact FillsInside.refl hle
  | succ n ih =>
    unfold createUpwards
    rw [Leaves,wp_bind]
    refine wp_mono (createDir_fills hle (hmay _ hstop)) (fun r t ht => ?_) (fun _ _ ht => ht)
    cases r with
    | ok u => exact ht
    | error e =>
      split
      · exact ht
      · exact ht
      · cases hpos : reverseFind pathName wslash with
        | none => exact ht
        | some pos =>
          dsimp only
          split_ifs
          · exact ht
          · have hup := (stopsIn_take (getElem?_of_reverseFind hpos)).trans hstop
            exact ht.since (ih hup ht.2)

theorem createDownwards_fills {path : WStr} (hmay : ∀ q, StopsIn q path → MayMake sys dest f₀ q)
    (n pos : Nat) (hle : f₀.Le d.fs) :
    Leaves (FillsInside sys dest f₀ d) (createDownwards sys path n pos) d := by
  induction n generalizing pos d with
  | zero => exact FillsInside.refl hle
  | succ n ih =>
    unfold createDownwards
    split_ifs
    · exact FillsInside.refl hle
    · rw [Leaves,wp_bind]
      refine wp_mono (createDir_fills hle (hmay _ (stopsIn_of_find path (pos+1))))
        (fun r t ht => ?_) (fun _ _ ht => ht)
      cases r with
      | error e => exact ht
      | ok u => exact ht.since (ih _ ht.2)

theorem createWay_fills {path pathName : WStr} (hmay : ∀ q, StopsIn q path → MayMake sys dest f₀ q)
    (hle : f₀.Le d.fs) (hstop : StopsIn pathName path) : Leaves (FillsInside sys dest f₀ d) (do
      match ← createUpwards sys (pathName.length+1) pathName with
      | none => pure false
      | some pos => createDownwards sys pathName (pathName.length+1) pos) d := by
  have hmay' : ∀ q, StopsIn q pathName → MayMake sys dest f₀ q :=
    fun q hq => hmay q (hq.trans hstop)
  rw [Leaves,wp_bind]
  refine wp_mono (createUpwards_fills hmay' _ (.inl rfl) hle) (fun r t ht => ?_)
    (fun _ _ ht => ht)
  cases r with
  | none => exact ht
  | some pos => exact ht.since (createDownwards_fills hmay' _ _ ht.2)

theorem createComplexDir_fills {path : WStr}
    (hmay : ∀ q, StopsIn q path → MayMake sys dest f₀ q) (hle : f₀.Le d.fs) :
    Leaves (FillsInside sys dest f₀ d) (CreateComplexDir sys path) d := by
  unfold CreateComplexDir
  dsimp only
  split_ifs with hdrive hslash
  · exact FillsInside.refl hle
  · refine createWay_fills hmay hle (.inr ⟨[],?_⟩)
    exact (List.dropLast_append_getLast? _ hslash.2).symm
  · exact createWay_fills hmay hle (.inl rfl)

/-- The calls of a program are confined from wherever it begins. -/
abbrev Confines (sys : System) (dest : Str) {α : Type} (x : DiskM α) : Prop :=
  Moves (Grown fun _ e => Confined sys.cwd dest e) x

theorem deleteFileAlways_confines {q : WStr} (hin : Inside sys.cwd dest (nameWindowToUnix2 q)) :
    Confines sys dest (DeleteFileAlways sys q) := by
  have hremove : Confines sys dest (sys.remove (nameWindowToUnix2 q)) :=
    System.moves_perform (fun _ hno => absurd rfl hno) fun _ _ _ _ _ => hin
  unfold DeleteFileAlways
  split_ifs
  · exact moves_pure _
  · refine hremove.bind fun r => ?_
    cases r <;> exact moves_pure _

theorem readlinkEffect_quiet {s : Str} {fs : FileSystem} {t : Str} {ch : Option Change}
    (h : sys.readlinkEffect s fs = .ok (t,ch)) : ch = none := by
  unfold Kernel.readlinkEffect at h
  cases hn : Kernel.nodeAt fs (sys.glance fs s) with
  | error e => simp [hn,bind,Except.bind] at h
  | ok n => cases n <;> simp [hn,bind,Except.bind] at h; exact h.2.symm

theorem unlinkLink_confines {name : Str} (hin : Inside sys.cwd dest name) :
    Confines sys dest (unlinkLink sys name) := by
  have hlink : Confines sys dest (sys.readlink name) :=
    System.moves_perform (fun _ => rfl) fun _ _ _ hk => readlinkEffect_quiet hk
  have hunlink : Confines sys dest (sys.unlink name) :=
    System.moves_perform (fun _ hno => absurd rfl hno) fun _ _ _ _ _ => hin
  unfold unlinkLink
  refine hlink.bind fun link => ?_
  split
  · refine hunlink.bind fun r => ?_
    cases r <;> exact moves_pure _
  · exact moves_pure _

theorem open_confines {q : WStr}
    (hin : Inside sys.cwd dest (nameWindowToUnix (nameWindowToUnix2 q))) :
    Confines sys dest (COutFileStream_Open sys q) := by
  have hopen : Confines sys dest (sys.openCreate (nameWindowToUnix (nameWindowToUnix2 q)) 0o666) :=
    System.moves_perform (fun _ => hin) fun _ _ _ _ => hin
  unfold COutFileStream_Open
  refine (unlinkLink_confines hin).bind fun unlinked => ?_
  split_ifs
  · exact moves_pure _
  · refine hopen.bind fun r => ?_
    cases r <;> exact moves_pure _

variable {cb : CArchiveExtractCallback}

theorem openFile_confines {whole : WStr} (h : StaysInside sys dest f₀ whole false) :
    Confines sys dest (cb.openFile sys whole) := by
  obtain ⟨hdelete,hopen⟩ := h.file rfl
  have hclear : Confines sys dest (cb.clearTheWay sys whole) := by
    refine moves_get.bind fun t => ?_
    split
    · exact deleteFileAlways_confines hdelete
    · exact moves_pure _
    · exact moves_throw _
  refine hclear.bind fun cleared => ?_
  split_ifs
  · refine (open_confines hopen).bind fun r => ?_
    cases r <;> exact moves_pure _
  · exact moves_pure _

theorem createFolders_fills {filePath : WStr} {isDir : Bool}
    (h : StaysInside sys dest d.fs (cb._directoryPath ++ filePath) isDir) :
    Leaves (FillsInside sys dest d.fs d) (cb.createFolders sys filePath) d := by
  unfold CArchiveExtractCallback.createFolders
  split
  · rename_i slashPos hpos
    have hat := getElem?_of_reverseFind hpos
    have hlt : slashPos < filePath.length := (List.getElem?_eq_some_iff.mp hat).1
    have hstop := (stopsIn_take hat).append_left cb._directoryPath
    have hmay : ∀ q, StopsIn q (cb._directoryPath ++ filePath.take slashPos) →
        MayMake sys dest d.fs q := by
      intro q hq
      refine h.above q (hq.trans hstop) (.inl fun heq => ?_)
      -- a path above the item is shorter than the item's
      have hle := hq.length_le
      rw [heq,List.length_append,List.length_append,List.length_take] at hle
      omega
    exact wp_bind.mpr (createComplexDir_fills hmay (.refl _))
  · exact FillsInside.refl (.refl _)

theorem place_confined {filePath : WStr} {isDir : Bool}
    (h : StaysInside sys dest d.fs (cb._directoryPath ++ filePath) isDir) :
    Leaves (Grown (fun _ e => Confined sys.cwd dest e) d) (cb.place sys filePath isDir) d := by
  unfold CArchiveExtractCallback.place
  refine wp_bind.mpr (wp_mono (createFolders_fills h) (fun u t ht => ?_) (fun _ _ ht => ht.1))
  dsimp only
  cases isDir with
  | true =>
    have hmay : ∀ q, StopsIn q (cb._directoryPath ++ filePath) → MayMake sys dest d.fs q :=
      fun q hq => h.above q hq (.inr rfl)
    exact wp_bind.mpr (wp_mono (ht.since (createComplexDir_fills hmay ht.2))
      (fun _ _ ht => ht.1) (fun _ _ ht => ht.1))
  | false => exact Leaves.since ht.1 (openFile_confines h t)

/-- An item that is asked for stays inside, if it is one to be extracted. -/
def CArchiveExtractCallback.AsksInside (sys : System) (cb : CArchiveExtractCallback) (dest : Str)
    (fs : FileSystem) (index : UInt32) (askExtractMode : AskMode) : Prop :=
  ∀ filePath isDir, cb.asked index askExtractMode = .ok (some (filePath,isDir,true)) →
    StaysInside sys dest fs (cb._directoryPath ++ filePath) isDir

theorem getStream_confined {index : UInt32} {askExtractMode : AskMode}
    (h : cb.AsksInside sys dest d.fs index askExtractMode) :
    Leaves (Grown (fun _ e => Confined sys.cwd dest e) d)
      (cb.GetStream sys index askExtractMode) d := by
  unfold CArchiveExtractCallback.GetStream
  split
  · exact refl_of (Grown _) d
  · exact refl_of (Grown _) d
  · exact refl_of (Grown _) d
  · rename_i filePath isDir hasked
    exact place_confined (h filePath isDir hasked)

theorem wchar_to_UTF8Loop_append_slash {x : WStr} (hx : (0 : UInt32) ∉ x) (codepoint : UInt32)
    (y : WStr) : wchar_to_UTF8Loop codepoint (x ++ wslash :: y) =
      wchar_to_UTF8Loop codepoint x ++ slash :: wchar_to_UTF8 y := by
  induction x generalizing codepoint with
  | nil =>
    have hone : utf8 wslash = [slash] := by decide
    have hhigh : ¬ (0xd800 ≤ wslash ∧ wslash ≤ 0xdbff) := by decide
    have hlow : ¬ (0xdc00 ≤ wslash ∧ wslash ≤ 0xdfff) := by decide
    have hzero : wslash ≠ 0 := by decide
    have hstep : wchar_to_UTF8Loop codepoint (wslash :: y) = utf8 wslash ++ wchar_to_UTF8 y := by
      rw [wchar_to_UTF8Loop,if_neg hzero,if_neg hhigh]
      simp only [hlow,if_false]
      rfl
    rw [List.nil_append,hstep,hone]
    rfl
  | cons c x ih =>
    simp only [List.mem_cons,not_or] at hx
    simp only [List.cons_append,wchar_to_UTF8Loop,Ne.symm hx.1,if_false,ih hx.2]
    split_ifs
    · rfl
    · rw [List.append_assoc]
    · rw [List.append_assoc]

theorem wchar_to_UTF8_append_slash {x : WStr} (hx : (0 : UInt32) ∉ x) (y : WStr) :
    wchar_to_UTF8 (x ++ wslash :: y) = wchar_to_UTF8 x ++ slash :: wchar_to_UTF8 y :=
  wchar_to_UTF8Loop_append_slash hx 0 y

theorem climbs_le_append (cs ds : List Name) : climbs cs ≤ climbs (cs ++ ds) := by
  induction cs with
  | nil => exact Nat.zero_le _
  | cons c cs ih =>
    simp only [List.cons_append,climbs]
    split_ifs <;> omega

/-- The beginnings of a path that never climbs out do not either. -/
theorem StopsIn.climbs_eq_zero {q path : WStr} (h : StopsIn q path) (hpath : (0 : UInt32) ∉ path)
    (hclimbs : climbs (components (nameWindowToUnix2 path)) = 0) :
    climbs (components (nameWindowToUnix2 q)) = 0 := by
  rcases h with rfl | ⟨r,rfl⟩
  · exact hclimbs
  · have hq : (0 : UInt32) ∉ q := fun hmem => hpath (by simp [hmem])
    unfold nameWindowToUnix2 at hclimbs ⊢
    rw [wchar_to_UTF8_append_slash hq] at hclimbs
    by_cases hnul : NulFree (wchar_to_UTF8 q)
    · rw [cstr_append_of_nulFree hnul] at hclimbs
      rw [cstr_of_nulFree hnul]
      have hcut : cstr (slash :: wchar_to_UTF8 r) = slash :: cstr (wchar_to_UTF8 r) := rfl
      rw [hcut,components_append_slash] at hclimbs
      have hle := climbs_le_append (components (wchar_to_UTF8 q)) (components (cstr (wchar_to_UTF8 r)))
      omega
    · rwa [cstr_append_of_nul hnul] at hclimbs

/-- A beginning of a path below `x` is a beginning of the way to `x`, or goes on from `x`. -/
theorem stopsIn_append_slash {q x y : WStr} (h : StopsIn q (x ++ wslash :: y)) :
    StopsIn q x ∨ ∃ q', q = x ++ wslash :: q' ∧ StopsIn q' y := by
  rcases h with rfl | ⟨r,hr⟩
  · exact .inr ⟨y,rfl,.inl rfl⟩
  · rcases List.append_eq_append_iff.mp hr with ⟨z,hq,hz⟩ | ⟨z,hx,hz⟩
    · cases z with
      | nil =>
        rw [List.append_nil] at hq
        exact .inl (.inl hq)
      | cons b z =>
        simp only [List.cons_append,List.cons.injEq] at hz
        exact .inr ⟨z,by rw [hq,hz.1],.inr ⟨r,hz.2⟩⟩
    · cases z with
      | nil =>
        rw [List.append_nil] at hx
        exact .inl (.inl hx.symm)
      | cons b z =>
        simp only [List.cons_append,List.cons.injEq] at hz
        exact .inl (.inr ⟨z,by rw [hx,hz.1]⟩)

/-- An item whose `..` each have a name of its own path to take back stays in a destination that
is there. -/
theorem staysInside_of_climbs {x filePath : WStr} {isDir : Bool} {fs : FileSystem}
    (hx : (0 : UInt32) ∉ x) (hdest : wchar_to_UTF8 x = dest) (habs : absolute dest)
    (hnul : NulFree dest) (hthere : ∀ q, StopsIn q x → UString q ≠ [] →
      Occupied sys.toKernel fs (nameWindowToUnix2 q))
    (hpath : (0 : UInt32) ∉ filePath)
    (hclimbs : climbs (components (nameWindowToUnix2 filePath)) = 0) :
    StaysInside sys dest fs (x ++ wslash :: filePath) isDir := by
  have hne : dest ≠ [] := by
    rintro rfl
    simp [absolute] at habs
  have inside : ∀ q, StopsIn q filePath →
      nameWindowToUnix2 (x ++ wslash :: q) = dest ++ slash :: nameWindowToUnix2 q ∧
        Inside sys.cwd dest (nameWindowToUnix2 (x ++ wslash :: q)) := by
    intro q hq
    have hname : nameWindowToUnix2 (x ++ wslash :: q) = dest ++ slash :: nameWindowToUnix2 q := by
      unfold nameWindowToUnix2
      rw [wchar_to_UTF8_append_slash hx,hdest,cstr_append_of_nulFree hnul]
      rfl
    have hcut : cstr (nameWindowToUnix2 q) = nameWindowToUnix2 q :=
      cstr_of_nulFree (nulFree_cstr _)
    rw [hname]
    exact ⟨rfl,inside_append hnul hne (by rw [hcut]; exact hq.climbs_eq_zero hpath hclimbs)⟩
  constructor
  · intro q hq _ hnil
    rcases stopsIn_append_slash hq with hq | ⟨q',rfl,hq'⟩
    · exact .inl (hthere q hq hnil)
    · exact .inr (inside q' hq').2
  · intro _
    obtain ⟨hname,hin⟩ := inside filePath (.inl rfl)
    have hletter : nameWindowToUnix (nameWindowToUnix2 (x ++ wslash :: filePath)) =
        nameWindowToUnix2 (x ++ wslash :: filePath) := by
      obtain ⟨b,rest,hb⟩ := List.exists_cons_of_ne_nil hne
      unfold absolute at habs
      rw [hb,List.head?_cons,Option.some.injEq] at habs
      unfold nameWindowToUnix
      rw [hname,hb,habs]
      exact if_neg (by simp [text,slash])
    exact ⟨hin,by rwa [hletter]⟩

section

variable (archiveHandler : IInArchive) (unset : UInt32) (subDirLength : Nat) (childName : WStr)
  (Find : Disk → WStr → Option Bool)

/-- In a run of `extractFromArchive` whose questions all stay inside the destination folder,
whatever is made, taken away or opened is inside it. -/
theorem extraction_stays_inside {d' : Disk}
    (h : Extracts sys (.Init unset archiveHandler dest subDirLength childName Find)
      ((CArchiveExtractCallback.Init unset archiveHandler dest subDirLength childName
        Find).AsksInside sys dest) d d') :
    ∃ es, d'.log = d.log ++ es ∧ ∀ e ∈ es, Confined sys.cwd dest e := by
  induction h with
  | start => exact ⟨[],by simp,by simp⟩
  | @getStream d' index askExtractMode _ hok ih =>
    obtain ⟨es,hlog,hall⟩ := ih
    obtain ⟨es',hlog',hist⟩ := leaves_iff.mp (getStream_confined hok)
    refine ⟨es ++ es',by rw [hlog',hlog,List.append_assoc],fun e he => ?_⟩
    rcases List.mem_append.mp he with he | he
    · exact hall e he
    · exact hist.all (fun _ _ h => h) e he
  | elsewhere fs _ ih => exact ih

end

def wide (cs : List Char) : WStr := (text cs).map (·.toUInt32)

def archiveOf (path : WStr) : IInArchive := fun _ prop =>
  match prop with
  | .kpidPath => .ok (.VT_BSTR path)
  | .kpidSize => .ok .VT_UI8
  | _ => .ok .VT_EMPTY

/-- `/d`, an empty directory, to extract to. -/
def emptyD : Disk :=
  ⟨.ofEntries [([],.dir 0o755),([text ['d']],.dir 0o755)] (by decide),[],0,0⟩

def toD (path : WStr) : CArchiveExtractCallback :=
  .Init 0 (archiveOf path) (text ['/','d']) 0 [] fun _ _ => some false

theorem toD_asksInside (index : UInt32) (askExtractMode : AskMode) :
    (toD (wide ['a','/','x'])).AsksInside System.calm (text ['/','d']) emptyD.fs index
      askExtractMode := by
  intro filePath isDir hasked
  have hpath : filePath = wide ['a','/','x'] := by
    cases askExtractMode with
    | kExtract =>
      have hsome : (toD (wide ['a','/','x'])).asked index .kExtract =
          .ok (some (wide ['a','/','x'],false,true)) := rfl
      rw [hsome] at hasked
      simpa using (congrArg Prod.fst (Option.some.inj (Except.ok.inj hasked))).symm
    | kTest => simp [show (toD (wide ['a','/','x'])).asked index .kTest = .ok none from rfl] at hasked
    | kSkip => simp [show (toD (wide ['a','/','x'])).asked index .kSkip = .ok none from rfl] at hasked
  have hthere : ∀ q, StopsIn q (wide ['/','d']) → UString q ≠ [] →
      Occupied System.calm.toKernel emptyD.fs (nameWindowToUnix2 q) := by
    intro q hq hne
    rcases hq with rfl | ⟨rest,hrest⟩
    · exact ⟨.name [] (text ['d']),by decide +kernel,by decide⟩
    · -- before the first slash there is nothing
      cases q with
      | nil => exact absurd rfl hne
      | cons b q =>
        have htail : (100 : UInt32) :: [] = q ++ wslash :: rest := (List.cons.inj hrest).2
        have hmem : wslash ∈ (100 : UInt32) :: [] := by rw [htail]; simp
        exact absurd hmem (by decide)
  rw [hpath]
  exact staysInside_of_climbs (x := wide ['/','d']) (by decide) (by decide) (by decide) (by decide)
    hthere (by decide) (by decide)

theorem extraction_of_one_file :
    (final ((toD (wide ['a','/','x'])).GetStream System.calm 0 .kExtract) emptyD).log ≠ [] ∧
      ∀ e ∈ (final ((toD (wide ['a','/','x'])).GetStream System.calm 0 .kExtract) emptyD).log,
        Confined [] (text ['/','d']) e := by
  obtain ⟨es,hlog,hall⟩ := extraction_stays_inside (archiveOf (wide ['a','/','x'])) 0 0 []
    (fun _ _ => some false)
    (.getStream 0 .kExtract (@Extracts.start System.calm _ _ emptyD) (toD_asksInside 0 .kExtract))
  refine ⟨by decide +kernel,fun e he => hall e ?_⟩
  have hall : es = _ := hlog.symm
  rw [hall]
  exact he

/-- A file is opened for writing beside the destination folder. -/
theorem extraction_climbs_out : ∃ d', Extracts System.calm (toD (wide ['.','.','/','x']))
    (fun _ _ _ => True) emptyD d' ∧
      ∃ e ∈ d'.log, e.change ≠ none ∧ ¬ Confined [] (text ['/','d']) e :=
  ⟨_,.getStream 0 .kExtract (.start emptyD) trivial,by decide +kernel⟩

end RootHelper
