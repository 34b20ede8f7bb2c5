import Mathlib.Data.List.Pairwise
import RootHelper.ArchiveBatches

/-!
How many items an archive has at its top, and what the scan for a single one makes of them: it
remembers one name, and an empty name is none.
-/

set_option autoImplicit false

namespace RootHelper
open Posix

/-- The path as it stands in the archive. -/
def ArchiveItem.path (item : ArchiveItem) : Str :=
  match item.kpidPath with
  | .VT_BSTR u => wchar_to_UTF8 u
  | .VT_EMPTY => []
  | .other => []

/-- Empty where there are only slashes. -/
def firstComponent (path : Str) : Str := (path.dropWhile (· = slash)).takeWhile (· ≠ slash)

/-- There are two things to be created at the top. -/
def SeveralTops (items : List ArchiveItem) : Prop :=
  ∃ a ∈ items, ∃ b ∈ items, firstComponent a.path ≠ [] ∧ firstComponent b.path ≠ [] ∧
    firstComponent a.path ≠ firstComponent b.path

instance (items : List ArchiveItem) : Decidable (SeveralTops items) :=
  inferInstanceAs (Decidable (∃ a ∈ items, ∃ b ∈ items, _))

def ArchiveItem.newTopItem (item : ArchiveItem) : Str := (archiveEntry item).filename.takeWhile (· ≠ slash)

def ArchiveItem.Plain (item : ArchiveItem) : Prop := item.path ≠ [] ∧ item.path.head? ≠ some slash

instance (item : ArchiveItem) : Decidable item.Plain := inferInstanceAs (Decidable (_ ∧ _))

def PlainTopsDiffer (items : List ArchiveItem) : Prop :=
  ∃ a ∈ items, ∃ b ∈ items, a.Plain ∧ b.Plain ∧ firstComponent a.path ≠ firstComponent b.path

/-- Two tops, one of them behind a slash at the beginning of its path. -/
def SlashTopsDiffer (items : List ArchiveItem) : Prop :=
  ∃ a ∈ items, ∃ b ∈ items, ¬ a.Plain ∧ firstComponent a.path ≠ [] ∧ firstComponent b.path ≠ [] ∧
    firstComponent a.path ≠ firstComponent b.path

/-- Behind an item that is taken to have a top stands one that is taken to have another or none, and the
paths of the two do not both begin with a name. -/
def OddItemBehind (items : List ArchiveItem) : Prop :=
  ∃ a b, [a,b].Sublist items ∧ a.newTopItem ≠ [] ∧ b.newTopItem ≠ a.newTopItem ∧ ¬ (a.Plain ∧ b.Plain)

section Items

variable {item : ArchiveItem} {path : Str}

theorem firstComponent_of_head (hpath : path ≠ []) (hhead : path.head? ≠ some slash) :
    firstComponent path = path.takeWhile (· ≠ slash) ∧ firstComponent path ≠ [] := by
  cases path with
  | nil => exact absurd rfl hpath
  | cons c path =>
    have hc : c ≠ slash := fun heq => hhead (by rw [heq]; rfl)
    simp [firstComponent,hc]

theorem ArchiveItem.Plain.newTopItem_eq (h : item.Plain) :
    item.newTopItem = firstComponent item.path ∧ item.newTopItem ≠ [] := by
  obtain ⟨hpath,hhead⟩ := h
  have hname : (archiveEntry item).filename = item.path := by
    unfold ArchiveItem.path at hpath ⊢
    unfold archiveEntry
    cases hkind : item.kpidPath with
    | VT_BSTR u =>
      simp only [hkind] at hpath
      simp only [if_neg hpath]
    | VT_EMPTY => exact absurd (by rw [hkind]) hpath
    | other => exact absurd (by rw [hkind]) hpath
  obtain ⟨heq,hne⟩ := firstComponent_of_head hpath hhead
  rw [ArchiveItem.newTopItem,hname,← heq]
  exact ⟨rfl,hne⟩

end Items

section Scan

variable {items : List ArchiveItem} {currentTopItem : Str}

theorem singleItem_cases : singleItem currentTopItem items = 1 ∨ singleItem currentTopItem items = 2 := by
  induction items generalizing currentTopItem with
  | nil => exact .inl rfl
  | cons item items ih =>
    rw [singleItem]
    split_ifs
    · exact ih
    · exact .inr rfl
    · exact ih

theorem singleItem_top_iff (h : currentTopItem ≠ []) :
    singleItem currentTopItem items = 2 ↔ ∃ b ∈ items, b.newTopItem ≠ currentTopItem := by
  induction items with
  | nil => simp [singleItem]
  | cons item items ih =>
    rw [singleItem,if_neg h,List.exists_mem_cons_iff,← ih]
    change (if item.newTopItem ≠ currentTopItem then 2 else _) = 2 ↔ _
    by_cases hsame : item.newTopItem = currentTopItem
    · simp [hsame]
    · simp [hsame]

theorem singleItem_iff : singleItem [] items = 2 ↔
    ∃ a b, [a,b].Sublist items ∧ a.newTopItem ≠ [] ∧ b.newTopItem ≠ a.newTopItem := by
  induction items with
  | nil => simp [singleItem]
  | cons item items ih =>
    rw [singleItem,if_pos rfl]
    change singleItem item.newTopItem items = 2 ↔ _
    by_cases htop : item.newTopItem = []
    · rw [htop,ih]
      constructor
      · rintro ⟨a,b,hsub,hab⟩
        exact ⟨a,b,hsub.cons item,hab⟩
      · rintro ⟨a,b,hsub,hne,hother⟩
        rcases List.sublist_cons_iff.mp hsub with hsub | ⟨rest,heq,hsub⟩
        · exact ⟨a,b,hsub,hne,hother⟩
        · obtain ⟨rfl,rfl⟩ := List.cons.inj heq
          exact absurd htop hne
    · rw [singleItem_top_iff htop]
      constructor
      · rintro ⟨b,hb,hother⟩
        exact ⟨item,b,(List.singleton_sublist.mpr hb).cons_cons item,htop,hother⟩
      · rintro ⟨a,b,hsub,hne,hother⟩
        rcases List.sublist_cons_iff.mp hsub with hsub | ⟨rest,heq,hsub⟩
        · -- one of two different tops differs from the remembered one
          by_cases hsame : b.newTopItem = item.newTopItem
          · exact ⟨a,hsub.subset (by simp),fun heq => hother (hsame.trans heq.symm)⟩
          · exact ⟨b,hsub.subset (by simp),hsame⟩
        · obtain ⟨rfl,rfl⟩ := List.cons.inj heq
          exact ⟨b,List.singleton_sublist.mp hsub,hother⟩

theorem pair_sublist {a b : ArchiveItem} (ha : a ∈ items) (hb : b ∈ items) (hne : a ≠ b) :
    [a,b].Sublist items ∨ [b,a].Sublist items := by
  induction items with
  | nil => cases ha
  | cons item items ih =>
    rcases List.mem_cons.mp ha with rfl | ha'
    · have hb' : b ∈ items := (List.mem_cons.mp hb).resolve_left (Ne.symm hne)
      exact .inl ((List.singleton_sublist.mpr hb').cons_cons a)
    rcases List.mem_cons.mp hb with rfl | hb'
    · exact .inr ((List.singleton_sublist.mpr ha').cons_cons b)
    · exact (ih ha' hb').imp (·.cons item) (·.cons item)

theorem scan_iff : singleItem [] items = 2 ↔ PlainTopsDiffer items ∨ OddItemBehind items := by
  rw [singleItem_iff]
  constructor
  · rintro ⟨a,b,hsub,hne,hother⟩
    by_cases hplain : a.Plain ∧ b.Plain
    · refine .inl ⟨a,hsub.subset (by simp),b,hsub.subset (by simp),hplain.1,hplain.2,fun heq => hother ?_⟩
      rw [hplain.1.newTopItem_eq.1,hplain.2.newTopItem_eq.1,heq]
    · exact .inr ⟨a,b,hsub,hne,hother,hplain⟩
  · rintro (⟨a,ha,b,hb,hpa,hpb,hne⟩ | ⟨a,b,hsub,hne,hother,_⟩)
    · rw [← hpa.newTopItem_eq.1,← hpb.newTopItem_eq.1] at hne
      rcases pair_sublist ha hb (fun heq => hne (heq ▸ rfl)) with hsub | hsub
      · exact ⟨a,b,hsub,hpa.newTopItem_eq.2,Ne.symm hne⟩
      · exact ⟨b,a,hsub,hpb.newTopItem_eq.2,hne⟩
    · exact ⟨a,b,hsub,hne,hother⟩

theorem severalTops_iff : SeveralTops items ↔ PlainTopsDiffer items ∨ SlashTopsDiffer items := by
  constructor
  · rintro ⟨a,ha,b,hb,hfa,hfb,hne⟩
    by_cases hpa : a.Plain
    · by_cases hpb : b.Plain
      · exact .inl ⟨a,ha,b,hb,hpa,hpb,hne⟩
      · exact .inr ⟨b,hb,a,ha,hpb,hfb,hfa,Ne.symm hne⟩
    · exact .inr ⟨a,ha,b,hb,hpa,hfa,hfb,hne⟩
  · rintro (⟨a,ha,b,hb,hpa,hpb,hne⟩ | ⟨a,ha,b,hb,_,hfa,hfb,hne⟩)
    · exact ⟨a,ha,b,hb,(firstComponent_of_head hpa.1 hpa.2).2,(firstComponent_of_head hpb.1 hpb.2).2,hne⟩
    · exact ⟨a,ha,b,hb,hfa,hfb,hne⟩

end Scan

section Archives

variable {lib : ArchiveLibrary} {flags : Nat} {rq : ExtractRequest} {archivepath : Str}
  {items : List ArchiveItem}

theorem subfolder_items (hopened : lib.opened archivepath rq.password = .items items)
    (hsmart : rq.smartCreateDirectory flags) :
    subfolder flags rq lib archivepath = .ok [] ↔ singleItem [] items = 1 := by
  have hret : lib.checkForSingleItem archivepath rq.password = singleItem [] items := by
    rw [ArchiveLibrary.checkForSingleItem,hopened]
  simp only [subfolder,if_pos hsmart,hret]
  rcases @singleItem_cases items [] with h | h <;> simp [h]

theorem single_item_iff (hopened : lib.opened archivepath rq.password = .items items) :
    ((lib.checkForSingleItem archivepath rq.password = 2 ↔ SeveralTops items) ∧
      (lib.checkForSingleItem archivepath rq.password = 1 ↔ ¬ SeveralTops items) ∧
      (rq.smartCreateDirectory flags → (subfolder flags rq lib archivepath = .ok [] ↔ ¬ SeveralTops items))) ↔
      PlainTopsDiffer items ∨ (OddItemBehind items ↔ SlashTopsDiffer items) := by
  have hret : lib.checkForSingleItem archivepath rq.password = singleItem [] items := by
    rw [ArchiveLibrary.checkForSingleItem,hopened]
  have hone : singleItem [] items = 1 ↔ ¬ singleItem [] items = 2 := by
    rcases @singleItem_cases items [] with h | h <;> simp [h]
  have hscan : (singleItem [] items = 2 ↔ SeveralTops items) ↔
      PlainTopsDiffer items ∨ (OddItemBehind items ↔ SlashTopsDiffer items) := by
    rw [scan_iff,severalTops_iff]
    by_cases hplain : PlainTopsDiffer items
    · simp only [hplain,true_or]
    · simp only [hplain,false_or]
  rw [hret,← hscan]
  constructor
  · rintro ⟨htwo,_⟩
    exact_mod_cast htwo
  · intro htwo
    refine ⟨by exact_mod_cast htwo,?_,fun hsmart => ?_⟩
    · rw [← htwo,← hone]
      norm_cast
    · rw [subfolder_items hopened hsmart,hone,htwo]

def archiveOfItems (items : List ArchiveItem) : ArchiveLibrary where
  lib7zLoaded := true
  createObjectFunc := true
  fread _ := some [0x50,0x4B,0x03,0x04,0,0,0,0]
  createObject _ := true
  openFile _ := true
  openArchive _ _ _ := some items

def plainFile (path : List Char) : ArchiveItem := ⟨0,.VT_BSTR (path.map Char.val),none,some false⟩

/-- `a/x` and `b`. -/
theorem single_item_two :
    (archiveOfItems [plainFile ['a','/','x'],plainFile ['b']]).checkForSingleItem [] [] = 2 ↔
      SeveralTops [plainFile ['a','/','x'],plainFile ['b']] :=
  ((@single_item_iff (archiveOfItems [plainFile ['a','/','x'],plainFile ['b']]) 0 ⟨[],[],[],[],0⟩ []
    [plainFile ['a','/','x'],plainFile ['b']] rfl).mpr
      (.inl ⟨plainFile ['a','/','x'],by simp,plainFile ['b'],by simp,by decide,by decide,by decide⟩)).1

/-- `/a` and `b` are taken for one item, `a` and `/a` for two. -/
theorem slash_hides_item :
    ((archiveOfItems [plainFile ['/','a'],plainFile ['b']]).checkForSingleItem [] [] = 1 ∧
      SeveralTops [plainFile ['/','a'],plainFile ['b']]) ∧
    ((archiveOfItems [plainFile ['a'],plainFile ['/','a']]).checkForSingleItem [] [] = 2 ∧
      ¬ SeveralTops [plainFile ['a'],plainFile ['/','a']]) := by
  decide +kernel

end Archives

end RootHelper
