import RootHelper.Protocol

/-!
What the writers send the readers get back, over any descriptor that gives and takes its bytes in
pieces.
-/

set_option autoImplicit false

namespace RootHelper
open Posix Control

variable {ε σ : Type}

/-- What is read is the front of what the descriptor holds. -/
def Source.Reads (desc : Source ε σ) (at_ : σ → Str → Prop) : Prop :=
  ∀ bs, Parses at_ (desc.readAllOrExit bs.length) bs bs

/-- So it is when there is something to read. -/
def Source.ReadsSome (desc : Source ε σ) (at_ : σ → Str → Prop) : Prop :=
  ∀ bs, bs ≠ [] → Parses at_ (desc.readAllOrExit bs.length) bs bs

/-- What is written is put at its end. -/
def Sink.Writes (desc : Sink ε σ) (at_ : σ → Str → Prop) : Prop :=
  ∀ c : Chunk, Prints at_ (desc.writeAllOrExit c) c.encode

/-! ### The loops -/

namespace Descriptor

variable {d : Descriptor ε σ} {at_ : σ → Str → Prop}

/-- A read of something gives at least one byte while there are any. -/
def Yields (d : Descriptor ε σ) (at_ : σ → Str → Prop) : Prop :=
  ∀ count s bs, 0 < count → bs ≠ [] → at_ s bs → ∃ k t, 0 < k ∧ k ≤ count ∧ k ≤ bs.length ∧
    d.read count s = .ok ((k : Int),bs.take k) t ∧ at_ t (bs.drop k)

/-- A write of something takes at least one byte. -/
def Takes (d : Descriptor ε σ) (at_ : σ → Str → Prop) : Prop :=
  ∀ buf s cs, buf ≠ [] → at_ s cs → ∃ (k : Nat) (t : σ), 0 < k ∧ k ≤ buf.length ∧
    d.write buf s = .ok (k : Int) t ∧ at_ t (cs ++ buf.take k)

theorem Yields.wp_readAllLoop (h : d.Yields at_) {count turns : Nat} {bs buf rest : Str} {s : σ}
    (hbs : bs ≠ []) (hturns : bs.length ≤ turns) (hs : at_ s (bs ++ rest)) :
    wp (d.readAllLoop count turns bs.length buf)
      (fun r t => r = ((count : Int),buf ++ bs) ∧ at_ t rest) (fun _ _ => False) s := by
  induction turns generalizing bs buf s with
  | zero =>
    have hlen := List.length_pos_of_ne_nil hbs
    omega
  | succ turns ih =>
    have hlen := List.length_pos_of_ne_nil hbs
    obtain ⟨k,t,hk,hcount,_,hread,hnext⟩ := h bs.length s (bs ++ rest) hlen (by simp [hbs]) hs
    rw [List.take_append_of_le_length hcount] at hread
    rw [List.drop_append_of_le_length hcount] at hnext
    rw [Descriptor.readAllLoop,wp_bind,wp_of_ok hread]
    simp only [Int.toNat_natCast]
    rw [if_neg (by omega)]
    by_cases hlast : bs.length - k = 0
    · have hall : bs.length ≤ k := by omega
      rw [if_pos hlast,List.take_of_length_le hall]
      rw [List.drop_of_length_le hall,List.nil_append] at hnext
      exact ⟨rfl,hnext⟩
    · rw [if_neg hlast,← List.length_drop]
      have hmore : bs.drop k ≠ [] := by
        rw [← List.length_pos_iff_ne_nil,List.length_drop]
        omega
      refine wp_mono (ih hmore (by rw [List.length_drop]; omega) hnext) ?_ fun _ _ h => h
      intro r u hr
      rw [hr.1,List.append_assoc,List.take_append_drop]
      exact ⟨rfl,hr.2⟩

theorem Yields.readsSome (h : d.Yields at_) : d.desc.toSource.ReadsSome at_ := by
  intro bs hbs s rest hs
  change wp (d.readAllOrExit bs.length) _ _ s
  rw [Descriptor.readAllOrExit,wp_bind]
  refine wp_mono (h.wp_readAllLoop hbs (Nat.le_succ _) hs) ?_ fun _ _ h => h
  intro r t hr
  obtain ⟨rfl,ht⟩ := hr
  simp only
  rw [if_neg (Int.lt_irrefl _)]
  exact ⟨rfl,ht⟩

theorem Yields.wp_readAllLoop_short (h : d.Yields at_)
    (hend : ∀ count s, at_ s [] → ∃ bytes t, d.read count s = .ok (0,bytes) t)
    {count turns remaining : Nat} {bs buf : Str} {s : σ} (hturns : bs.length < turns)
    (hshort : bs.length < remaining) (hs : at_ s bs) :
    wp (d.readAllLoop count turns remaining buf) (fun r _ => r.1 = 0) (fun _ _ => False) s := by
  induction turns generalizing bs buf remaining s with
  | zero => omega
  | succ turns ih =>
    rw [Descriptor.readAllLoop,wp_bind]
    by_cases hbs : bs = []
    · obtain ⟨bytes,t,hread⟩ := hend remaining s (hbs ▸ hs)
      rw [wp_of_ok hread]
      simp only
      rw [if_pos (Int.le_refl 0)]
      rfl
    · obtain ⟨k,t,hk,_,hle,hread,hnext⟩ := h remaining s bs (by omega) hbs hs
      rw [wp_of_ok hread]
      simp only [Int.toNat_natCast]
      rw [if_neg (by omega),if_neg (by omega)]
      exact ih (by rw [List.length_drop]; omega) (by rw [List.length_drop]; omega) hnext

theorem Yields.exits (h : d.Yields at_)
    (hend : ∀ count s, at_ s [] → ∃ bytes t, d.read count s = .ok (0,bytes) t)
    (hclose : ∀ s, ∃ t, d.close s = .ok () t) {count : Nat} {bs : Str} {s : σ}
    (hshort : bs.length < count) (hs : at_ s bs) :
    wp (d.readAllOrExit count) (fun _ _ => False) (fun e _ => e = d.threadExit) s := by
  rw [Descriptor.readAllOrExit,wp_bind]
  refine wp_mono (h.wp_readAllLoop_short hend (by omega) hshort hs) (fun r t hr => ?_)
    fun _ _ h => h.elim
  obtain ⟨u,hu⟩ := hclose t
  simp only [hr]
  rw [if_pos (by omega),wp_bind,wp_of_ok hu]
  rfl

theorem Takes.wp_writeAllLoop (h : d.Takes at_) {count turns : Nat} {buf cs : Str} {s : σ}
    (hbuf : buf ≠ []) (hturns : buf.length ≤ turns) (hs : at_ s cs) :
    wp (d.writeAllLoop count turns buf)
      (fun r t => r = count ∧ at_ t (cs ++ buf)) (fun _ _ => False) s := by
  induction turns generalizing buf cs s with
  | zero =>
    have hlen := List.length_pos_of_ne_nil hbuf
    omega
  | succ turns ih =>
    obtain ⟨k,t,hk,hle,hwrite,hnext⟩ := h buf s cs hbuf hs
    rw [Descriptor.writeAllLoop,wp_bind,wp_of_ok hwrite]
    simp only [Int.toNat_natCast]
    rw [if_neg (by omega)]
    by_cases hlast : buf.drop k = []
    · have hall : buf.length ≤ k := List.drop_eq_nil_iff.mp hlast
      rw [if_pos hlast]
      rw [List.take_of_length_le hall] at hnext
      exact ⟨rfl,hnext⟩
    · rw [if_neg hlast]
      refine wp_mono (ih hlast (by rw [List.length_drop]; omega) hnext) ?_ fun _ _ h => h
      intro r u hr
      rw [List.append_assoc,List.take_append_drop] at hr
      exact hr

theorem Takes.writes (h : d.Takes at_) {buf : Str} (hbuf : buf ≠ []) :
    Prints at_ (d.writeAllOrExit buf) buf := by
  intro s cs hs
  rw [Descriptor.writeAllOrExit,wp_bind]
  refine wp_mono (h.wp_writeAllLoop hbuf (Nat.le_succ _) hs) ?_ fun _ _ h => h
  intro r t hr
  obtain ⟨rfl,ht⟩ := hr
  rw [if_neg (Int.lt_irrefl _)]
  exact ht

end Descriptor

/-- A descriptor between two parties: a read of something gives at least one byte while there are
any, a write of something takes at least one. -/
structure Transport (ε σ : Type) extends Descriptor ε σ where
  content : σ → Str
  read_nothing : ∀ s, ∃ bytes t, read 0 s = .ok (0,bytes) t ∧ content t = content s
  read_some : ∀ count s, 0 < count → content s ≠ [] → ∃ k t, 0 < k ∧ k ≤ count ∧
    k ≤ (content s).length ∧ read count s = .ok ((k : Int),(content s).take k) t ∧
    content t = (content s).drop k
  write_nothing : ∀ s, ∃ t, write [] s = .ok 0 t ∧ content t = content s
  write_some : ∀ buf s, buf ≠ [] → ∃ (k : Nat) (t : σ), 0 < k ∧ k ≤ buf.length ∧
    write buf s = .ok (k : Int) t ∧ content t = content s ++ buf.take k

namespace Transport

variable (T : Transport ε σ)

def At (s : σ) (bs : Str) : Prop := T.content s = bs

theorem yields : T.toDescriptor.Yields T.At := fun count s _ hcount hbs hs =>
  hs ▸ T.read_some count s hcount (hs ▸ hbs)

theorem takes : T.toDescriptor.Takes T.At := fun buf s _ hbuf hs =>
  hs ▸ T.write_some buf s hbuf

theorem reads : T.desc.toSource.Reads T.At := by
  intro bs
  by_cases hbs : bs = []
  · intro s rest h
    obtain ⟨bytes,t,hread,hnext⟩ := T.read_nothing s
    subst hbs
    change wp (T.readAllOrExit 0) _ _ s
    rw [Descriptor.readAllOrExit,wp_bind,Descriptor.readAll,Descriptor.readAllLoop,wp_bind,
      wp_of_ok hread]
    simp only
    rw [if_pos (Int.le_refl 0),wp_pure,if_neg (by simp)]
    exact ⟨rfl,hnext.trans h⟩
  · exact T.yields.readsSome bs hbs

theorem writes : T.desc.toSink.Writes T.At := by
  intro c
  change Prints T.At (T.writeAllOrExit c.encode) c.encode
  generalize c.encode = buf
  by_cases hbuf : buf = []
  · intro s cs h
    obtain ⟨t,hwrite,hnext⟩ := T.write_nothing s
    subst hbuf
    rw [Descriptor.writeAllOrExit,wp_bind,Descriptor.writeAll,List.length_nil,
      Descriptor.writeAllLoop,wp_bind,wp_of_ok hwrite]
    rw [if_pos (Int.le_refl 0),wp_pure,if_neg (by simp)]
    exact hnext.trans (by rw [List.append_nil]; exact h)
  · exact T.takes.writes hbuf

end Transport

/-- An open connection that still hears `inp` and has sent `out`. -/
def Hears (out : List Chunk) (k : Conn) (inp : Str) : Prop := k = ⟨inp,out,none,false⟩

theorem conn_readsSome (out : List Chunk) : connDesc.toSource.ReadsSome (Hears out) := by
  intro bs hbs k rest h
  have hlen := List.length_pos_of_ne_nil hbs
  subst h
  change wp (readAllOrExit bs.length) _ _ _
  simp only [readAllOrExit,wp_bind,wp_get]
  rw [if_neg (by omega),if_neg (by simp)]
  simp [Hears]

theorem conn_reads (out : List Chunk) : connDesc.toSource.Reads (Hears out) := by
  intro bs
  by_cases hbs : bs = []
  · subst hbs
    exact parses_pure []
  · exact conn_readsSome out bs hbs

/-- An open connection that has sent these bytes and not read on. -/
def Tells (inp : Str) (k : Conn) (cs : Str) : Prop :=
  k.inp = inp ∧ k.room = none ∧ k.closed = false ∧ k.bytes = cs

theorem conn_writes (inp : Str) : connDesc.toSink.Writes (Tells inp) := by
  intro c k cs h
  obtain ⟨hinp,hroom,hopen,hbytes⟩ := h
  change wp (writeAllOrExit c) _ _ k
  by_cases hc : c.encode = []
  · rw [writeAllOrExit,wp_bind,wp_get,if_pos hc,hc,List.append_nil]
    exact ⟨hinp,hroom,hopen,hbytes⟩
  · rw [wp_writeAllOrExit_iff hc]
    have htakes : k.takes 1 := ⟨hopen,fun r hr => by rw [hroom] at hr; cases hr⟩
    refine ⟨fun _ => ⟨hinp,by simp [Conn.sent,hroom],hopen,?_⟩,fun hfull => absurd htakes hfull⟩
    rw [← hbytes]
    simp [Conn.sent,Conn.bytes]

/-! ### Each value by itself -/

section Values

variable {src : Source ε σ} {snk : Sink ε σ} {at_ : σ → Str → Prop}

theorem Source.Reads.some (h : src.Reads at_) : src.ReadsSome at_ := fun bs _ => h bs

theorem Source.Reads.bytes (h : src.Reads at_) {bs : Str} {n : Nat} (hn : bs.length = n) :
    Parses at_ (src.readAllOrExit n) bs bs := hn ▸ h bs

theorem parses_u8 (h : src.ReadsSome at_) (b : Byte) : Parses at_ src.readU8 [b] b :=
  (h [b] (by simp)).last fun s => s.headD 0

theorem parses_number (h : src.ReadsSome at_) {width n : Nat} (hn : n < 256^width)
    (hwidth : 0 < width) :
    Parses at_ (fromLittleEndian <$> src.readAllOrExit width) (littleEndian width n) n := by
  have hlen := length_littleEndian width n
  have hsome : littleEndian width n ≠ [] := by
    rw [← List.length_pos_iff_ne_nil]
    omega
  have hread := (hlen ▸ h _ hsome : Parses at_ (src.readAllOrExit width) _ _).map fromLittleEndian
  rwa [fromLittleEndian_littleEndian,Nat.mod_eq_of_lt hn] at hread

theorem parses_u16 (h : src.ReadsSome at_) {n : Nat} (hn : n < 65536) :
    Parses at_ src.readU16 (littleEndian 2 n) n := parses_number h hn (by decide)

theorem parses_u32 (h : src.ReadsSome at_) {n : Nat} (hn : n < 2^32) :
    Parses at_ src.readU32 (littleEndian 4 n) n := parses_number h hn (by decide)

theorem parses_u64 (h : src.ReadsSome at_) {n : Nat} (hn : n < 2^64) :
    Parses at_ src.readU64 (littleEndian 8 n) n := parses_number h hn (by decide)

/-- A string with its length before it. -/
def stringBytes (s : Str) : Str := littleEndian 2 s.length ++ s

theorem prints_string (h : snk.Writes at_) {s : Str} (hs : s.length < 65536) :
    Prints at_ (snk.writeStringWithLen s) (stringBytes s) := by
  rw [Sink.writeStringWithLen,Nat.mod_eq_of_lt hs,List.take_length]
  exact (h _).bind fun _ => h _

theorem parses_string (h : src.ReadsSome at_) {s : Str} (hs : s.length < 65536) :
    Parses at_ src.readStringWithLen (stringBytes s) s := by
  refine (parses_u16 h hs).bind ?_
  split
  · rename_i hempty
    rw [List.length_eq_zero_iff.mp hempty]
    exact parses_pure []
  · rename_i hne
    exact h s fun hs => hne (by rw [hs]; rfl)

def pairBytes (v : Str × Str) : Str :=
  littleEndian 2 v.1.length ++ (littleEndian 2 v.2.length ++ (v.1 ++ v.2))

theorem prints_pair (h : snk.Writes at_) {v : Str × Str} (hv : v.1 ≠ [])
    (hlen : v.1.length < 65536 ∧ v.2.length < 65536) :
    Prints at_ (snk.writePairOfStringsWithPairOfLens v) (pairBytes v) := by
  have hne : v.1.length ≠ 0 := fun h0 => hv (List.length_eq_zero_iff.mp h0)
  rw [Sink.writePairOfStringsWithPairOfLens,Nat.mod_eq_of_lt hlen.1,Nat.mod_eq_of_lt hlen.2]
  simp only [if_neg hne,List.take_length]
  exact (h _).bind fun _ => (h _).bind fun _ => (h _).bind fun _ => h _

/-- When there is no second string its bytes are read nevertheless. -/
theorem parses_pair (h : src.ReadsSome at_) {v : Str × Str} (hv : v.1 ≠ [])
    (hlen : v.1.length < 65536 ∧ v.2.length < 65536)
    (hlast : Parses at_ (src.readAllOrExit v.2.length) v.2 v.2) :
    Parses at_ src.readPairOfStringsWithPairOfLens (pairBytes v) v := by
  have hne : v.1.length ≠ 0 := fun h0 => hv (List.length_eq_zero_iff.mp h0)
  refine (parses_u16 h hlen.1).bind ((parses_u16 h hlen.2).bind ?_)
  rw [if_neg hne]
  exact (h v.1 hv).bind (hlast.last fun t => (v.1,t))

theorem prints_response (h : snk.Writes at_) {errno : Nat} :
    Prints at_ (snk.sendBaseResponse (if errno = 0 then 0 else -1) errno)
      (if errno = 0 then [RESPONSE_OK] else RESPONSE_ERROR :: littleEndian 4 errno) := by
  unfold Sink.sendBaseResponse
  by_cases h0 : errno = 0
  · rw [if_pos h0,if_pos h0,if_pos rfl]
    exact h (.u8 RESPONSE_OK)
  · rw [if_neg h0,if_neg h0,if_neg (by decide)]
    exact (h (.u8 RESPONSE_ERROR)).bind fun _ => h (.u32 errno)

theorem parses_response (h : src.ReadsSome at_) {errno : Nat} (hlt : errno < 2^32) :
    Parses at_ src.receiveBaseResponse
      (if errno = 0 then [RESPONSE_OK] else RESPONSE_ERROR :: littleEndian 4 errno) errno := by
  by_cases h0 : errno = 0
  · rw [if_pos h0,h0]
    exact (parses_u8 h RESPONSE_OK).bind (parses_pure 0)
  · rw [if_neg h0]
    refine (parses_u8 h RESPONSE_ERROR).bind ?_
    rw [if_neg (by decide)]
    exact parses_u32 h hlt

/-- The list ends with the lengths of a pair of nothing. -/
def pathPairsBytes (l : List (Str × Str)) : Str := l.flatMap pairBytes ++ littleEndian 4 0

theorem prints_pathPairs (h : snk.Writes at_) {l : List (Str × Str)}
    (hlen : ∀ v ∈ l, v.1.length < 65536 ∧ v.2.length < 65536) :
    Prints at_ (snk.sendPathPairsList l) (pathPairsBytes l) := by
  have items : Prints at_ (snk.sendPathPairs l) (l.flatMap pairBytes) := by
    induction l with
    | nil => exact prints_pure ()
    | cons v l ih =>
      have hv := hlen v List.mem_cons_self
      have hbytes : Sink.pathPairRequest v = pairBytes v := by
        simp [Sink.pathPairRequest,pairBytes,Nat.mod_eq_of_lt hv.1,Nat.mod_eq_of_lt hv.2]
      rw [Sink.sendPathPairs,hbytes,List.flatMap_cons]
      exact (h _).bind fun _ => ih fun w hw => hlen w (List.mem_cons_of_mem _ hw)
  exact items.bind fun _ => h (.u32 0)

/-- One turn more than there are pairs is enough, and so is any number from there on. -/
theorem parses_pathPairs (h : src.Reads at_) {l : List (Str × Str)} {turns : Nat}
    (hl : ∀ v ∈ l, v.1 ≠ [] ∧ v.1.length < 65536 ∧ v.2.length < 65536)
    (hturns : l.length < turns) :
    Parses at_ (src.receivePathPairsList turns) (pathPairsBytes l) l := by
  induction l generalizing turns with
  | nil =>
    obtain ⟨turns,rfl⟩ := Nat.exists_eq_add_of_lt hturns
    have len := parses_u16 h.some (n := 0) (by decide)
    have last : Parses at_ src.readPairOfStringsWithPairOfLens (littleEndian 4 0) ([],[]) :=
      len.bind (len.bind (parses_pure ([],[])))
    exact last.bind (parses_pure [])
  | cons v l ih =>
    obtain ⟨hne,hlen⟩ := hl v List.mem_cons_self
    cases turns with
    | zero => simp at hturns
    | succ turns =>
      rw [pathPairsBytes,List.flatMap_cons,List.append_assoc]
      refine (parses_pair h.some hne hlen (h v.2)).bind ?_
      rw [if_neg hne]
      refine (ih (fun w hw => hl w (List.mem_cons_of_mem _ hw)) ?_).last fun l => v :: l
      simpa using hturns

theorem prints_singleStats (h : snk.Writes at_) {r : singleStats_resp_t}
    (hgroup : r.group.length < 256) (howner : r.owner.length < 256)
    (hperm : r.permissions.length = 10) :
    Prints at_ (snk.writesingleStats_resp r) ([.ofNat r.group.length] ++ (r.group ++
      ([.ofNat r.owner.length] ++ (r.owner ++ (littleEndian 4 r.creationTime.toNat ++
        (littleEndian 4 r.lastAccessTime.toNat ++ (littleEndian 4 r.modificationTime.toNat ++
          (r.permissions ++ littleEndian 8 r.size.toNat)))))))) := by
  have hlen : ∀ s : Str, s.length < 256 → s.take (UInt8.ofNat s.length).toNat = s := fun s hs => by
    simp [Nat.mod_eq_of_lt hs]
  unfold Sink.writesingleStats_resp
  simp only [hlen _ hgroup,hlen _ howner,← hperm,List.take_length]
  exact (h _).bind fun _ => (h _).bind fun _ => (h _).bind fun _ => (h _).bind fun _ =>
    (h _).bind fun _ => (h _).bind fun _ => (h _).bind fun _ => (h _).bind fun _ => h _

theorem parses_singleStats (h : src.Reads at_) {r : singleStats_resp_t}
    (hgroup : r.group.length < 256) (howner : r.owner.length < 256)
    (hperm : r.permissions.length = 10) :
    Parses at_ src.readsingleStats_resp ([.ofNat r.group.length] ++ (r.group ++
      ([.ofNat r.owner.length] ++ (r.owner ++ (littleEndian 4 r.creationTime.toNat ++
        (littleEndian 4 r.lastAccessTime.toNat ++ (littleEndian 4 r.modificationTime.toNat ++
          (r.permissions ++ littleEndian 8 r.size.toNat)))))))) r := by
  have hlen : ∀ s : Str, s.length < 256 → s.length = (UInt8.ofNat s.length).toNat := fun s hs => by
    simp [Nat.mod_eq_of_lt hs]
  have h32 : ∀ x : UInt32, Parses at_ src.readU32 (littleEndian 4 x.toNat) x.toNat := fun x =>
    parses_u32 h.some x.toNat_lt
  have h64 := parses_u64 h.some r.size.toNat_lt
  refine (parses_u8 h.some _).bind ((h.bytes (hlen _ hgroup)).bind ?_)
  refine (parses_u8 h.some _).bind ((h.bytes (hlen _ howner)).bind ?_)
  refine (h32 _).bind ((h32 _).bind ((h32 _).bind ((h.bytes hperm).bind ?_)))
  have hlast := h64.last fun size => ({ r with size := .ofNat size } : singleStats_resp_t)
  simpa using hlast

theorem prints_folderStats (h : snk.Writes at_) {r : folderStats_resp_t} :
    Prints at_ (snk.writefolderStats_resp r) (littleEndian 8 r.childrenDirs.toNat ++
      (littleEndian 8 r.childrenFiles.toNat ++ (littleEndian 8 r.totalDirs.toNat ++
        (littleEndian 8 r.totalFiles.toNat ++ littleEndian 8 r.totalSize.toNat)))) :=
  (h _).bind fun _ => (h _).bind fun _ => (h _).bind fun _ => (h _).bind fun _ => h _

theorem parses_folderStats (h : src.Reads at_) {r : folderStats_resp_t} :
    Parses at_ src.readfolderStats_resp (littleEndian 8 r.childrenDirs.toNat ++
      (littleEndian 8 r.childrenFiles.toNat ++ (littleEndian 8 r.totalDirs.toNat ++
        (littleEndian 8 r.totalFiles.toNat ++ littleEndian 8 r.totalSize.toNat)))) r := by
  have h64 : ∀ x : UInt64, Parses at_ src.readU64 (littleEndian 8 x.toNat) x.toNat := fun x =>
    parses_u64 h.some x.toNat_lt
  refine (h64 _).bind ((h64 _).bind ((h64 _).bind ((h64 _).bind ?_)))
  have hlast := (h64 r.totalSize).last fun size =>
    ({ r with totalSize := .ofNat size } : folderStats_resp_t)
  simpa using hlast

end Values

/-! ### Sequences -/

inductive ProtocolKind where
  | string
  | pair
  | pathPairs
  | singleStats
  | folderStats
  | response
  deriving DecidableEq, Repr

/-- A response is 0 or an error number. -/
inductive ProtocolValue where
  | string (s : Str)
  | pair (v : Str × Str)
  | pathPairs (l : List (Str × Str))
  | singleStats (r : singleStats_resp_t)
  | folderStats (r : folderStats_resp_t)
  | response (errno : Nat)
  deriving DecidableEq, Repr

namespace ProtocolValue

def kind : ProtocolValue → ProtocolKind
  | string _ => .string
  | pair _ => .pair
  | pathPairs _ => .pathPairs
  | singleStats _ => .singleStats
  | folderStats _ => .folderStats
  | response _ => .response

/-- The formats have room for it: a pair that is read as one has a first string. -/
def InRange : ProtocolValue → Prop
  | string s => s.length < 65536
  | pair v => v.1 ≠ [] ∧ v.1.length < 65536 ∧ v.2.length < 65536
  | pathPairs l => ∀ v ∈ l, v.1 ≠ [] ∧ v.1.length < 65536 ∧ v.2.length < 65536
  | singleStats r => r.group.length < 256 ∧ r.owner.length < 256 ∧ r.permissions.length = 10
  | folderStats _ => True
  | response errno => errno < 2^32

def write (desc : Sink ε σ) : ProtocolValue → EStateM ε σ Unit
  | string s => desc.writeStringWithLen s
  | pair v => desc.writePairOfStringsWithPairOfLens v
  | pathPairs l => desc.sendPathPairsList l
  | singleStats r => desc.writesingleStats_resp r
  | folderStats r => desc.writefolderStats_resp r
  | response errno => desc.sendBaseResponse (if errno = 0 then 0 else -1) errno

def writeAll (desc : Sink ε σ) : List ProtocolValue → EStateM ε σ Unit
  | [] => pure ()
  | v :: vs => do
    v.write desc
    writeAll desc vs

def encode : ProtocolValue → Str
  | string s => stringBytes s
  | pair v => pairBytes v
  | pathPairs l => pathPairsBytes l
  | singleStats r => [.ofNat r.group.length] ++ (r.group ++
      ([.ofNat r.owner.length] ++ (r.owner ++ (littleEndian 4 r.creationTime.toNat ++
        (littleEndian 4 r.lastAccessTime.toNat ++ (littleEndian 4 r.modificationTime.toNat ++
          (r.permissions ++ littleEndian 8 r.size.toNat)))))))
  | folderStats r => littleEndian 8 r.childrenDirs.toNat ++
      (littleEndian 8 r.childrenFiles.toNat ++ (littleEndian 8 r.totalDirs.toNat ++
        (littleEndian 8 r.totalFiles.toNat ++ littleEndian 8 r.totalSize.toNat)))
  | response errno => if errno = 0 then [RESPONSE_OK] else RESPONSE_ERROR :: littleEndian 4 errno

end ProtocolValue

namespace ProtocolKind

def read (desc : Source ε σ) (turns : Nat) : ProtocolKind → EStateM ε σ ProtocolValue
  | string => .string <$> desc.readStringWithLen
  | pair => .pair <$> desc.readPairOfStringsWithPairOfLens
  | pathPairs => .pathPairs <$> desc.receivePathPairsList turns
  | singleStats => .singleStats <$> desc.readsingleStats_resp
  | folderStats => .folderStats <$> desc.readfolderStats_resp
  | response => .response <$> desc.receiveBaseResponse

def readAll (desc : Source ε σ) (turns : Nat) : List ProtocolKind → EStateM ε σ (List ProtocolValue)
  | [] => pure []
  | kind :: kinds => do
    let v ← kind.read desc turns
    let vs ← readAll desc turns kinds
    pure (v :: vs)

end ProtocolKind

namespace ProtocolValue

variable {src : Source ε σ} {snk : Sink ε σ} {at_ : σ → Str → Prop} {v : ProtocolValue} {vs : List ProtocolValue}
  {n : Nat}

theorem prints (h : snk.Writes at_) (hv : v.InRange) : Prints at_ (v.write snk) v.encode := by
  cases v with
  | string s => exact prints_string h hv
  | pair v => exact prints_pair h hv.1 hv.2
  | pathPairs l => exact prints_pathPairs h fun v hm => (hv v hm).2
  | singleStats r => exact prints_singleStats h hv.1 hv.2.1 hv.2.2
  | folderStats r => exact prints_folderStats h
  | response errno => exact prints_response h

/-- How many turns a reader of the value may need. -/
def turns : ProtocolValue → Nat
  | pathPairs l => l.length + 1
  | _ => 0

theorem exists_turns (vs : List ProtocolValue) : ∃ n, ∀ v ∈ vs, v.turns ≤ n := by
  induction vs with
  | nil => exact ⟨0,by simp⟩
  | cons v vs ih =>
    obtain ⟨n,hn⟩ := ih
    refine ⟨v.turns + n,fun w hw => ?_⟩
    rcases List.mem_cons.mp hw with rfl | hw
    · omega
    · have hle := hn w hw
      omega

theorem parses (h : src.Reads at_) (hv : v.InRange) (hturns : v.turns ≤ n) :
    Parses at_ (v.kind.read src n) v.encode v := by
  cases v with
  | string s => exact (parses_string h.some hv).map _
  | pair v => exact (parses_pair h.some hv.1 hv.2 (h v.2)).map _
  | pathPairs l => exact (parses_pathPairs h hv hturns).map _
  | singleStats r => exact (parses_singleStats h hv.1 hv.2.1 hv.2.2).map _
  | folderStats r => exact (parses_folderStats h).map _
  | response errno => exact (parses_response h.some hv).map _

theorem prints_all (h : snk.Writes at_) (hv : ∀ v ∈ vs, v.InRange) :
    Prints at_ (writeAll snk vs) (vs.flatMap encode) := by
  induction vs with
  | nil => exact prints_pure ()
  | cons v vs ih =>
    rw [writeAll,List.flatMap_cons]
    exact (prints h (hv v List.mem_cons_self)).bind fun _ =>
      ih fun w hw => hv w (List.mem_cons_of_mem _ hw)

theorem parses_all (h : src.Reads at_) (hv : ∀ v ∈ vs, v.InRange)
    (hturns : ∀ v ∈ vs, v.turns ≤ n) :
    Parses at_ (ProtocolKind.readAll src n (vs.map kind)) (vs.flatMap encode) vs := by
  induction vs with
  | nil => exact parses_pure []
  | cons v vs ih =>
    rw [List.map_cons,ProtocolKind.readAll,List.flatMap_cons]
    refine (parses h (hv v List.mem_cons_self) (hturns v List.mem_cons_self)).bind ?_
    exact (ih (fun w hw => hv w (List.mem_cons_of_mem _ hw))
      fun w hw => hturns w (List.mem_cons_of_mem _ hw)).last fun vs => v :: vs

/-- However the bytes are split on their way, the readers give the values that were written, each
takes exactly the bytes its writer has put, and nothing is left. -/
theorem round_trip (T : Transport ε σ) (hv : ∀ v ∈ vs, v.InRange) :
    ∃ n, ∀ turns, n ≤ turns →
      (∀ v ∈ vs, ∀ s, ∃ t, v.write T.desc.toSink s = .ok () t ∧ T.content t = T.content s ++ v.encode) ∧
      (∀ v ∈ vs, ∀ s rest, T.content s = v.encode ++ rest →
        ∃ t, v.kind.read T.desc.toSource turns s = .ok v t ∧ T.content t = rest) ∧
      ∀ s, T.content s = [] → ∃ t u, writeAll T.desc.toSink vs s = .ok () t ∧
        ProtocolKind.readAll T.desc.toSource turns (vs.map kind) t = .ok vs u ∧ T.content u = [] := by
  obtain ⟨n,hneed⟩ := exists_turns vs
  refine ⟨n,fun n' hn' => ?_⟩
  have hturns : ∀ v ∈ vs, v.turns ≤ n' := fun v hm => (hneed v hm).trans hn'
  refine ⟨fun v hm s => ?_,fun v hm s rest hs => ?_,fun s hs => ?_⟩
  · obtain ⟨⟨⟩,t,hwrite,ht⟩ := ok_of_wp (prints T.writes (hv v hm) s _ rfl)
    exact ⟨t,hwrite,ht⟩
  · obtain ⟨w,t,hread,rfl,ht⟩ := ok_of_wp (parses T.reads (hv v hm) (hturns v hm) s rest hs)
    exact ⟨t,hread,ht⟩
  · obtain ⟨⟨⟩,t,hwrite,ht⟩ := ok_of_wp (prints_all T.writes hv s _ hs)
    rw [List.nil_append] at ht
    obtain ⟨ws,u,hread,rfl,hu⟩ := ok_of_wp
      (parses_all T.reads hv hturns t [] (by rw [List.append_nil]; exact ht))
    exact ⟨t,u,hwrite,hread,hu⟩

/-- Gives and takes one byte at a time. -/
def byteByByte : Transport Stop Str where
  read count := do
    let s ← get
    let k := min (min 1 count) s.length
    set (s.drop k)
    pure (k,s.take k)
  write buf := do
    modify (· ++ buf.take 1)
    pure (min 1 buf.length : Nat)
  close := pure ()
  threadExit := .threadExit
  diverges := .diverged
  content s := s
  read_nothing s := ⟨[],s,rfl,rfl⟩
  read_some count s hcount hs := by
    have hlen := List.length_pos_of_ne_nil hs
    have hone : min (min 1 count) s.length = 1 := by omega
    refine ⟨1,s.drop 1,by omega,hcount,hlen,?_,rfl⟩
    change EStateM.Result.ok (((min (min 1 count) s.length : Nat) : Int),_) _ = _
    rw [hone]
  write_nothing s := ⟨s ++ [],rfl,List.append_nil s⟩
  write_some buf s hbuf := by
    have hlen := List.length_pos_of_ne_nil hbuf
    have hone : min 1 buf.length = 1 := by omega
    refine ⟨1,s ++ buf.take 1,by omega,hlen,?_,rfl⟩
    rw [hone]
    rfl

theorem round_trip_byteByByte : ∃ n, ∀ turns, n ≤ turns → ∃ t u,
    writeAll byteByByte.desc.toSink [.string [0,65],.pathPairs [([1],[])],.response 2] [] = .ok () t ∧
    ProtocolKind.readAll byteByByte.desc.toSource turns [.string,.pathPairs,.response] t =
      .ok [.string [0,65],.pathPairs [([1],[])],.response 2] u ∧ u = [] := by
  have hv : ∀ v ∈ [string [0,65],pathPairs [([1],[])],response 2], v.InRange := by
    simp [InRange]
  obtain ⟨n,hn⟩ := round_trip byteByByte hv
  exact ⟨n,fun turns hturns => (hn turns hturns).2.2 [] rfl⟩

end ProtocolValue

end RootHelper
