import RootHelper.HttpDownload

/-!
The name a downloaded file gets: from a header, from the last part of the URL or from its host. Only
slashes are taken out of it.
-/

set_option autoImplicit false

namespace RootHelper
open Posix Sequences

def isQuote (b : Byte) : Bool := b = 34 ∨ b = 39

def attachmentPattern : Str :=
  cdPrefix ++ text ['a','t','t','a','c','h','m','e','n','t',';',' ','f','i','l','e','n','a','m','e']

/-- Behind `attachment; filename\*?=`, if it stands here. -/
def behindFilename (s : Str) : Option Str :=
  if attachmentPattern.isPrefixOf s then
    match s.drop attachmentPattern.length with
    | 42 :: 61 :: r => some r
    | 61 :: r => some r
    | _ => none
  else none

/-- `['"]?(?:UTF-\d['"]*)?([^;\r\n"']*)`: all of it may be empty, so that each part takes what it can. -/
def firstGroup (s : Str) : Str :=
  let s := match s with
    | c :: r => if isQuote c then r else s
    | [] => []
  let s := match s with
    | 85 :: 84 :: 70 :: 45 :: d :: r => if isdigit d then r.dropWhile isQuote else s
    | _ => s
  s.takeWhile fun b => ¬ (b = 59 ∨ b = 13 ∨ b = 10 ∨ isQuote b)

/-- The group of the first match, empty where there is none. -/
def parseContentDispLine : Str → Str
  | [] => []
  | c :: line =>
    match behindFilename (c :: line) with
    | some s => firstGroup s
    | none => parseContentDispLine line

/-- The regular expression of the source. What `sscanf` makes of two characters stays open. -/
def httpLibrary (scanHex : Str → Option UInt32) (unset : UInt32) : HttpLibrary :=
  ⟨parseContentDispLine,scanHex,unset⟩

variable (lib : HttpLibrary)

/-- What the first line with the prefix names, before anything is taken out of it. -/
def headerName (hdrs : Str) : Option Str := do
  let line ← (hdrs.splitOn 10).find? fun line => findStringIC line cdPrefix = some 0
  if lib.regexGroup line ≠ [] then pure (lib.regexGroup line)
  else (findString line [61]).map fun rawIdx => line.drop (rawIdx+1)

def lastPart (url : Str) : Str :=
  match lastSlash url with
  | none => []
  | some idx => (urlDecode lib lib.unset (url.drop (idx+1))).takeWhile (· ≠ 63)

def NamesFile (s : Str) : Prop := s ≠ [] ∧ s ≠ dotName ∧ s ≠ dotdotName ∧ 0 ∉ s

instance (s : Str) : Decidable (NamesFile s) := inferInstanceAs (Decidable (_ ∧ _ ∧ _ ∧ _))

def NameFits (hdrs url : Str) : Prop :=
  match headerName lib hdrs with
  | some z => NamesFile (rtrim z)
  | none =>
    if lastPart lib url = [] then slash ∈ url → 0 ∉ url.takeWhile (· ≠ slash)
    else NamesFile (lastPart lib url)

section Names

variable {lib} {s hdrs url : Str}

theorem slash_not_mem_noSlashes : slash ∉ noSlashes s := by
  rw [noSlashes,List.mem_map]
  rintro ⟨b,_,hb⟩
  split_ifs at hb with hslash
  · exact absurd hb (by decide)
  · exact hslash hb

theorem zero_mem_noSlashes : 0 ∈ noSlashes s ↔ 0 ∈ s := by
  rw [noSlashes,List.mem_map]
  constructor
  · rintro ⟨b,hb,heq⟩
    split_ifs at heq
    · exact absurd heq (by decide)
    · exact heq ▸ hb
  · exact fun h => ⟨0,h,by decide⟩

theorem noSlashes_of_free (h : slash ∉ s) : noSlashes s = s := by
  rw [noSlashes]
  conv_rhs => rw [← List.map_id s]
  refine List.map_congr_left fun b hb => ?_
  have hne : b ≠ slash := fun heq => h (heq ▸ hb)
  simp [hne]

theorem noSlashes_eq_iff {name : Str} (hname : 95 ∉ name) (hslash : slash ∉ name) :
    noSlashes s = name ↔ s = name := by
  constructor
  · rintro rfl
    have hfree : slash ∉ s := by
      intro hmem
      exact hname (List.mem_map.mpr ⟨slash,hmem,if_pos rfl⟩)
    exact (noSlashes_of_free hfree).symm
  · rintro rfl
    exact noSlashes_of_free hslash

theorem properName_noSlashes : ProperName (noSlashes s) ↔ NamesFile s := by
  have hnil : noSlashes s = [] ↔ s = [] := noSlashes_eq_iff (by simp) (by simp)
  have hdot : noSlashes s = dotName ↔ s = dotName := noSlashes_eq_iff (by decide) (by decide)
  have hdots : noSlashes s = dotdotName ↔ s = dotdotName := noSlashes_eq_iff (by decide) (by decide)
  simp only [ProperName,NamesFile,ne_eq,hnil,hdot,hdots,zero_mem_noSlashes,slash_not_mem_noSlashes,
    not_false_eq_true,true_and]
  tauto

theorem rtrim_noSlashes : rtrim (noSlashes s) = noSlashes (rtrim s) := by
  have hblank : ∀ b : Byte, (decide ((if b = slash then 95 else b) = 32 ∨
      (if b = slash then (95 : Byte) else b) = 13 ∨ (if b = slash then 95 else b) = 10 ∨
      (if b = slash then (95 : Byte) else b) = 9)) = decide (b = 32 ∨ b = 13 ∨ b = 10 ∨ b = 9) := by
    intro b
    by_cases hb : b = slash
    · subst hb
      decide
    · simp only [if_neg hb]
  simp only [rtrim,noSlashes,← List.map_reverse,List.dropWhile_map,Function.comp_def,hblank]

theorem contentDispName_eq :
    contentDispName lib hdrs = (headerName lib hdrs).map (fun z => noSlashes (rtrim z)) := by
  unfold contentDispName headerName
  cases (hdrs.splitOn 10).find? fun line => findStringIC line cdPrefix = some 0 with
  | none => rfl
  | some line =>
    simp only [bind,Option.bind,← rtrim_noSlashes]
    split_ifs
    · rfl
    · cases findString line [61] <;> rfl

theorem urlName_eq :
    urlName lib url = if lastPart lib url = [] then none else some (noSlashes (lastPart lib url)) := by
  unfold urlName lastPart
  cases lastSlash url with
  | none => rfl
  | some idx =>
    have hnil : ∀ y, noSlashes y = [] ↔ y = [] := fun y => noSlashes_eq_iff (by simp) (by simp)
    simp only [bind,Option.bind,hnil]
    rfl

theorem domainName_proper {name : Str} (h : domainName url = some name) :
    ProperName name ↔ (slash ∈ url → 0 ∉ url.takeWhile (· ≠ slash)) := by
  simp only [domainName] at h
  split_ifs at h with hhost
  obtain rfl := Option.some.inj h
  have hfree : slash ∉ url.takeWhile (· ≠ slash) := fun hmem => by simpa using List.mem_takeWhile_imp hmem
  have hpos := List.length_pos_iff.mpr hhost.2
  have hfive : (text ['.','h','t','m','l']).length = 5 := rfl
  have hne : ∀ s : Str, s.length ≤ 5 → url.takeWhile (· ≠ slash) ++ text ['.','h','t','m','l'] ≠ s := by
    rintro s hs rfl
    rw [List.length_append] at hs
    omega
  have hnil := hne [] (by decide)
  have hdot := hne dotName (by decide)
  have hdots := hne dotdotName (by decide)
  have hslash : slash ∉ text ['.','h','t','m','l'] := by decide
  have hzero : (0 : Byte) ∉ text ['.','h','t','m','l'] := by decide
  simp only [ProperName,List.mem_append,hfree,hslash,hzero,or_false,hhost.1,forall_const,not_false_eq_true,
    true_and]
  exact ⟨fun h => h.2.1,fun h => ⟨hnil,h,hdot,hdots⟩⟩

theorem filename_proper_iff (hdrs url : Str) :
    ProperName (getHttpFilename lib hdrs url) ↔ NameFits lib hdrs url := by
  unfold getHttpFilename NameFits
  rw [contentDispName_eq,urlName_eq]
  cases headerName lib hdrs with
  | some z => exact properName_noSlashes
  | none =>
    by_cases hpart : lastPart lib url = []
    · simp only [Option.map_none,Option.none_or,if_pos hpart]
      cases hdomain : domainName url with
      | some name => exact domainName_proper hdomain
      | none =>
        refine iff_of_true (by decide) fun hslash => ?_
        simp only [domainName,hslash,true_and] at hdomain
        split_ifs at hdomain with hhost
        rw [not_not.mp hhost]
        simp
    · simp only [Option.map_none,Option.none_or,if_neg hpart]
      exact properName_noSlashes

def attachment (name : List Char) : Str := attachmentPattern ++ text ('=' :: name ++ ['\r','\n','\r','\n'])

example : parseContentDispLine (attachment ['U','T','F','-','8','\'','\'','a',' ','b',';']) =
    text ['a',' ','b'] := by decide +kernel

/-- The server names the parent directory, nothing at all, or a name with a NUL in it. -/
theorem header_names_parent :
    getHttpFilename (httpLibrary (fun _ => none) 0) (attachment ['"','.','.','"']) (text ['h','/','x']) =
        dotdotName ∧
      getHttpFilename (httpLibrary (fun _ => none) 0) (attachment [' ']) (text ['h','/','x']) = [] ∧
      getHttpFilename (httpLibrary (fun _ => none) 0) (attachment ['a','\x00']) (text ['h','/','x']) =
        text ['a','\x00'] ∧
      ¬ ProperName dotdotName ∧ ¬ ProperName [] ∧ ¬ ProperName (text ['a','\x00']) := by
  decide +kernel

end Names

end RootHelper
