import RootHelper.HttpDownload

/-!
The header block as the lines it consists of, and which of them the search for "Content-Length: " comes
upon.
-/

set_option autoImplicit false

namespace RootHelper
open Posix Sequences

structure Field where
  name : Str
  value : Str
  deriving DecidableEq, Repr

structure HeaderBlock where
  statusLine : Str
  fields : List Field
  deriving DecidableEq, Repr

def Field.line (f : Field) : Str := f.name ++ 58 :: f.value

def HeaderBlock.lines (block : HeaderBlock) : List Str := block.statusLine :: block.fields.map Field.line

def blockBytes (lines : List Str) : Str := lines.flatMap (· ++ crlf) ++ crlf

def OneLine (s : Str) : Prop := 13 ∉ s ∧ 10 ∉ s

instance (s : Str) : Decidable (OneLine s) := inferInstanceAs (Decidable (_ ∧ _))

def ows (b : Byte) : Bool := b = 32 ∨ b = 9

def contentLengthName : Str := text ['C','O','N','T','E','N','T','-','L','E','N','G','T','H']

def Field.isContentLength (f : Field) : Bool := f.name.map toupper = contentLengthName

/-- The value is the number, with optional white space around it. -/
def Field.Says (f : Field) (n : Nat) : Prop :=
  ∃ before digits after, f.value = before ++ digits ++ after ∧ before.all ows ∧ after.all ows ∧
    digits ≠ [] ∧ digits.all isdigit ∧ decimal digits = n

structure HeaderBlock.WellFormed (block : HeaderBlock) : Prop where
  statusLine : OneLine block.statusLine
  name : ∀ f ∈ block.fields, OneLine f.name ∧ 58 ∉ f.name ∧ ∀ b ∈ f.name, ¬ ows b
  value : ∀ f ∈ block.fields, OneLine f.value

/-- The field for the length, if there is one. -/
def HeaderBlock.contentLength (block : HeaderBlock) : Option Field :=
  block.fields.find? Field.isContentLength

/-- The length the block gives; the unknown marker where it gives none. -/
def HeaderBlock.Gives (block : HeaderBlock) (n : Nat) : Prop :=
  match block.contentLength with
  | none => n = maxuint
  | some f => f.Says n

/-- What stands in a line behind the pattern. -/
def behindPattern (line : Str) : Option Str :=
  (findStringIC line contentLengthPattern).map fun k => line.drop (k + contentLengthPattern.length)

/-- The first line with the pattern in it, if there is any, is the field for the length, with a space
behind the colon. -/
def HeaderBlock.Led (block : HeaderBlock) : Prop :=
  match block.contentLength with
  | none => ∀ line ∈ block.lines, behindPattern line = none
  | some f => f.value.head? = some 32 ∧ ∃ before after, block.lines = before ++ f.line :: after ∧
      ∀ line ∈ before, behindPattern line = none

/-- Some other text happens to read as the length. -/
def HeaderBlock.Coincides (block : HeaderBlock) (n : Nat) : Prop :=
  match block.lines.findSome? behindPattern with
  | none => n = maxuint
  | some t => (strtol t % 2^64).toNat = n

section Lines

variable {line : Str} {lines : List Str}

theorem pattern_ends (b : Byte) (hb : b ∈ crlf) (a : Byte) (ha : a ∈ contentLengthPattern) :
    (toupper b == toupper a) = false := by
  have hall : ∀ b ∈ crlf, ∀ a ∈ contentLengthPattern, (toupper b == toupper a) = false := by
    decide +kernel
  exact hall b hb a ha

theorem search_lines (hlines : ∀ line ∈ lines, OneLine line) :
    match findStringIC (blockBytes lines) contentLengthPattern with
    | none => lines.findSome? behindPattern = none
    | some k => ∃ t tail, lines.findSome? behindPattern = some t ∧ OneLine t ∧
        (blockBytes lines).drop (k + contentLengthPattern.length) = t ++ crlf ++ tail := by
  induction lines with
  | nil =>
    have hnone : findStringIC (blockBytes []) contentLengthPattern = none := by decide +kernel
    rw [hnone]
    rfl
  | cons line lines ih =>
    rw [List.forall_mem_cons] at hlines
    have hbytes : blockBytes (line :: lines) = line ++ (crlf ++ blockBytes lines) := by
      simp [blockBytes]
    cases hfind : findStringIC line contentLengthPattern with
    | some k =>
      have hthere : findStringIC (blockBytes (line :: lines)) contentLengthPattern = some k := by
        rw [hbytes]
        exact search_append hfind
      have hbound := search_bound hfind
      rw [hthere]
      refine ⟨line.drop (k + contentLengthPattern.length),blockBytes lines,?_,?_,?_⟩
      · simp [behindPattern,hfind]
      · exact ⟨fun h => hlines.1.1 (List.mem_of_mem_drop h),fun h => hlines.1.2 (List.mem_of_mem_drop h)⟩
      · rw [hbytes,List.drop_append_of_le_length hbound,List.append_assoc]
    | none =>
      have hnext : findStringIC (blockBytes (line :: lines)) contentLengthPattern =
          (findStringIC (blockBytes lines) contentLengthPattern).map (· + (line.length + crlf.length)) := by
        rw [hbytes]
        exact search_line (by decide) (by decide) pattern_ends hfind
      have hbehind : (line :: lines).findSome? behindPattern = lines.findSome? behindPattern := by
        simp [behindPattern,hfind]
      have hrest := ih hlines.2
      rw [hnext,hbehind]
      cases hfind' : findStringIC (blockBytes lines) contentLengthPattern with
      | none =>
        rw [hfind'] at hrest
        exact hrest
      | some k =>
        rw [hfind'] at hrest
        obtain ⟨t,tail,hsome,ht,hdrop⟩ := hrest
        refine ⟨t,tail,hsome,ht,?_⟩
        have hplace : k + (line.length + crlf.length) + contentLengthPattern.length =
            (line ++ crlf).length + (k + contentLengthPattern.length) := by
          rw [List.length_append]
          omega
        rw [hbytes,← List.append_assoc,hplace,← List.drop_drop,List.drop_left,hdrop]

/-- The length is what stands behind the pattern in the first line that has it. -/
theorem parseContentLength_lines (hlines : ∀ line ∈ lines, OneLine line) :
    parseContentLength (blockBytes lines) = .ok
      (match lines.findSome? behindPattern with
        | none => maxuint
        | some t => (strtol t % 2^64).toNat) := by
  have hsearch := search_lines hlines
  unfold parseContentLength
  cases hfind : findStringIC (blockBytes lines) contentLengthPattern with
  | none =>
    rw [hfind] at hsearch
    rw [hsearch]
    rfl
  | some k =>
    rw [hfind] at hsearch
    obtain ⟨t,tail,hsome,ht,hdrop⟩ := hsearch
    have hcr : findString (t ++ crlf ++ tail) [13] = some t.length := by
      have hfirst : ¬ [13] <:+: (t ++ [13]).dropLast := by
        rw [List.dropLast_concat,List.singleton_infix_iff]
        exact ht.1
      have hhere : t ++ crlf ++ tail = t ++ [13] ++ (10 :: tail) := by simp [crlf]
      rw [hhere]
      exact search_first (by decide) hfirst
    have htake : (t ++ crlf ++ tail).take t.length = t := by rw [List.append_assoc,List.take_left]
    simp only [hdrop,hcr,hsome,orThrow,bind,Except.bind,htake]
    rfl

end Lines

section Fields

variable {f : Field} {block : HeaderBlock} {n : Nat} {before digits after : Str}

theorem isspace_of_ows {b : Byte} (h : ows b = true) : isspace b = true := by
  simp only [ows,isspace,decide_eq_true_eq] at h ⊢
  rcases h with rfl | rfl <;> decide

theorem not_isspace_of_isdigit {b : Byte} (h : isdigit b = true) :
    isspace b = false ∧ b ≠ 45 ∧ b ≠ 43 ∧ b ≠ 32 ∧ ows b = false := by
  have hall : ∀ n < 0x100, isdigit (UInt8.ofNat n) = true → isspace (UInt8.ofNat n) = false ∧
      UInt8.ofNat n ≠ 45 ∧ UInt8.ofNat n ≠ 43 ∧ UInt8.ofNat n ≠ 32 ∧ ows (UInt8.ofNat n) = false := by
    decide +kernel
  have hb := hall b.toNat b.toNat_lt
  rw [UInt8.ofNat_toNat] at hb
  exact hb h

theorem decimal_append (hdigits : digits.all isdigit) (hafter : after.all ows) :
    decimal (digits ++ after) = decimal digits := by
  have hstop : after.takeWhile isdigit = [] := by
    cases after with
    | nil => rfl
    | cons b after =>
      rw [List.all_cons,Bool.and_eq_true] at hafter
      have hb : isdigit b = false := by
        by_contra hdigit
        rw [Bool.not_eq_false] at hdigit
        rw [(not_isspace_of_isdigit hdigit).2.2.2.2] at hafter
        exact absurd hafter.1 (by decide)
      simp [hb]
  have hwhole : digits.takeWhile isdigit = digits :=
    List.takeWhile_eq_self_iff.mpr (List.all_eq_true.mp hdigits)
  rw [decimal,decimal,hwhole,List.takeWhile_append_of_pos (List.all_eq_true.mp hdigits),hstop,
    List.append_nil]

theorem strtol_digits (hbefore : before.all ows) (hdigits : digits.all isdigit) (hne : digits ≠ [])
    (hafter : after.all ows) :
    strtol (before ++ digits ++ after) = min (decimal digits : Int) (2^63-1) := by
  obtain ⟨d,ds,rfl⟩ := List.exists_cons_of_ne_nil hne
  have hd := not_isspace_of_isdigit (List.all_eq_true.mp hdigits d (by simp))
  have hspaces : ∀ b ∈ before, isspace b = true := fun b hb =>
    isspace_of_ows (List.all_eq_true.mp hbefore b hb)
  have hdrop : (before ++ (d :: ds) ++ after).dropWhile isspace = d :: ds ++ after := by
    rw [List.append_assoc,List.dropWhile_append_of_pos hspaces,List.cons_append,List.dropWhile_cons,hd.1]
    rfl
  have hvalue := decimal_append hdigits hafter
  unfold strtol
  rw [hdrop]
  split
  · case h_1 heq => exact absurd (List.cons.inj heq).1 hd.2.1
  · case h_2 heq => exact absurd (List.cons.inj heq).1 hd.2.2.1
  · rw [hvalue]

theorem Field.Says.behind (hvalued : f.Says n) (hname : f.isContentLength = true)
    (hspace : f.value.head? = some 32) :
    ∃ t, behindPattern f.line = some t ∧ strtol t = min (n : Int) (2^63-1) := by
  obtain ⟨before,digits,after,hvalue,hbefore,hafter,hne,hdigits,hn⟩ := hvalued
  obtain ⟨d,ds,rfl⟩ := List.exists_cons_of_ne_nil hne
  have hd := not_isspace_of_isdigit (List.all_eq_true.mp hdigits d (by simp))
  cases before with
  | nil =>
    rw [hvalue] at hspace
    simp only [List.nil_append,List.cons_append,List.head?_cons,Option.some.injEq] at hspace
    exact absurd hspace hd.2.2.2.1
  | cons b before =>
    rw [hvalue] at hspace
    simp only [List.cons_append,List.head?_cons,Option.some.injEq] at hspace
    subst hspace
    rw [List.all_cons,Bool.and_eq_true] at hbefore
    have hmap : (f.name ++ [58,32]).map toupper = contentLengthPattern.map toupper := by
      rw [List.map_append,of_decide_eq_true hname]
      decide +kernel
    have hline : f.line = (f.name ++ [58,32]) ++ (before ++ (d :: ds) ++ after) := by
      simp [Field.line,hvalue]
    have hlen : (f.name ++ [58,32]).length = contentLengthPattern.length := by
      simpa using congrArg List.length hmap
    have hfind : findStringIC f.line contentLengthPattern = some 0 := by
      rw [hline]
      exact search_of_heads (heads_map hmap)
    refine ⟨before ++ (d :: ds) ++ after,?_,?_⟩
    · rw [behindPattern,hfind,Option.map_some,Nat.zero_add,hline,← hlen,List.drop_left]
    · rw [strtol_digits hbefore.2 hdigits hne hafter,hn]

theorem HeaderBlock.WellFormed.oneLine (hblock : block.WellFormed) : ∀ line ∈ block.lines, OneLine line := by
  intro line hline
  rcases List.mem_cons.mp hline with rfl | hline
  · exact hblock.statusLine
  · obtain ⟨f,hf,rfl⟩ := List.mem_map.mp hline
    have hname := (hblock.name f hf).1
    have hvalue := hblock.value f hf
    constructor
    · simpa [Field.line] using ⟨hname.1,hvalue.1⟩
    · simpa [Field.line] using ⟨hname.2,hvalue.2⟩

theorem content_length_iff (hblock : block.WellFormed) (hgives : block.Gives n) :
    parseContentLength (blockBytes block.lines) = .ok n ↔
      (block.Led ∧ (block.contentLength = none ∨ n < 2^63)) ∨ (¬ block.Led ∧ block.Coincides n) := by
  rw [parseContentLength_lines hblock.oneLine,Except.ok.injEq]
  by_cases hled : block.Led
  · simp only [hled,true_and,not_true_eq_false,false_and,or_false]
    unfold HeaderBlock.Led at hled
    unfold HeaderBlock.Gives at hgives
    cases hlength : block.contentLength with
    | none =>
      simp only [hlength] at hled hgives
      have hnone : block.lines.findSome? behindPattern = none := List.findSome?_eq_none_iff.mpr hled
      simp [hnone,hgives]
    | some f =>
      simp only [hlength] at hled hgives
      obtain ⟨hspace,before,after,hlines,hbefore⟩ := hled
      have hname : f.isContentLength = true := List.find?_some hlength
      obtain ⟨t,ht,hvalue⟩ := hgives.behind hname hspace
      have hfirst : block.lines.findSome? behindPattern = some t := by
        rw [hlines,List.findSome?_append,List.findSome?_eq_none_iff.mpr hbefore]
        simp [ht]
      simp only [hfirst,hvalue,reduceCtorEq,false_or]
      omega
  · simp only [hled,false_and,not_false_eq_true,true_and,false_or]
    unfold HeaderBlock.Coincides
    cases block.lines.findSome? behindPattern with
    | none => exact eq_comm
    | some t => exact Iff.rfl

def contentLengthField (value : List Char) : Field :=
  ⟨text ['C','o','n','t','e','n','t','-','L','e','n','g','t','h'],text value⟩

def otherField : Field :=
  ⟨text ['X','-','C','o','n','t','e','n','t','-','L','e','n','g','t','h'],text [' ','7']⟩

def okBlock (fields : List Field) : HeaderBlock :=
  ⟨text ['H','T','T','P','/','1','.','1',' ','2','0','0',' ','O','K'],fields⟩

theorem contentLengthField_sound : (contentLengthField [' ','5']).Says 5 :=
  ⟨[32],[53],[],rfl,rfl,rfl,by decide,rfl,rfl⟩

theorem content_length_five :
    parseContentLength (blockBytes (okBlock [contentLengthField [' ','5']]).lines) = .ok 5 :=
  (@content_length_iff (okBlock [contentLengthField [' ','5']]) 5
    ⟨by decide +kernel,by decide +kernel,by decide +kernel⟩ contentLengthField_sound).mpr
      (.inl ⟨⟨rfl,[(okBlock []).statusLine],[],rfl,by decide +kernel⟩,.inr (by decide)⟩)

/-- The name of another field ends like the one looked for. -/
theorem other_field_read :
    (okBlock [otherField,contentLengthField [' ','5']]).WellFormed ∧
      (okBlock [otherField,contentLengthField [' ','5']]).Gives 5 ∧
      parseContentLength (blockBytes (okBlock [otherField,contentLengthField [' ','5']]).lines) = .ok 7 ∧
      parseContentLength (blockBytes (okBlock [contentLengthField ['5']]).lines) = .ok maxuint :=
  ⟨⟨by decide +kernel,by decide +kernel,by decide +kernel⟩,contentLengthField_sound,by decide +kernel,
    by decide +kernel⟩

end Fields

end RootHelper
