import RootHelper.Posix.Containment
import RootHelper.Moves
import RootHelper.RemoteBoundaries

/-!
What a client makes of the reply to a download request. The places come from the reply; the list that
was sent with the request is not looked at again.
-/

set_option autoImplicit false

namespace RootHelper
open Posix Control

section Model

/-- What an `AutoFlushBufferedWriteDescriptor` that holds `buffer` writes of the writes `xs` and a last
`flush`. -/
def autoFlushed : Str → List Str → List Str
  | buffer, [] => if buffer = [] then [] else [buffer]
  | buffer, x :: xs =>
    let buffer := buffer ++ x
    if 8192 ≤ buffer.length then buffer :: autoFlushed [] xs else autoFlushed buffer xs

def writePieces : List Str → TransferM Unit
  | [] => pure ()
  | x :: xs => do
    networkDesc.writeAllOrExit (.bytes x)
    writePieces xs

def client_download (sys : System) : TransferM Unit := do
  let s ← get
  let v ← clDesc.receivePathPairsList (s.cl.inp.length+1)
  writePieces (autoFlushed []
    ([UInt8.ofNat ACTION_DOWNLOAD] :: (v.map Sink.pathPairRequest ++ [littleEndian 4 0])))
  downloadRemoteItems sys true

end Model

/-- The head of the item `bs` begins with, and what comes behind it. -/
def nextItem : Str → Option (fileitem_sock_t × Str)
  | [] => none
  | flag :: bs =>
    if flag = 0xFF then none
    else
      match nextString bs with
      | none => none
      | some file =>
        let rest := bs.drop (2 + file.length)
        if flag ≠ 0x00 then some (⟨flag,file,0⟩,rest)
        else if rest.length < 8 then none
        else some (⟨flag,file,fromLittleEndian (rest.take 8)⟩,rest.drop 8)

/-- At most `turns` items, each file's content passed over. -/
def itemsIn : Nat → Str → List fileitem_sock_t
  | 0, _ => []
  | turns+1, bs =>
    match nextItem bs with
    | none => []
    | some (item,rest) =>
      if item.flag = 0x00 then item :: itemsIn turns (rest.drop item.size)
      else if item.flag = 0x01 then item :: itemsIn turns rest
      else []

/-- The items behind the two totals. -/
def replyItems (reply : Str) : List fileitem_sock_t :=
  itemsIn ((reply.drop 16).length+1) (reply.drop 16)

/-! ### Calls made for items -/

def Call.creates : Call → Bool
  | .openExcl _ _ | .mkdir _ _ => true
  | _ => false

/-- A file is made at the path of an item that is one; a directory at the path of an item, or above
one. -/
def NamedBy (items : List fileitem_sock_t) : Call → Prop
  | .openExcl s _ => ∃ item ∈ items, item.flag = 0x00 ∧ item.file = s
  | .mkdir s _ => ∃ item ∈ items, item.file = s ∨ ∃ y, item.file = s ++ slash :: y
  | .lstat _ | .stat _ | .write _ _ => True
  | _ => False

def MadeFor (items : List fileitem_sock_t) (fs : FileSystem) (e : Event) : Prop :=
  NamedBy items e.call ∧ ∀ ch, e.change = some ch →
    ∃ p c n, ch = .put p c n ∧ (fs.has (p ++ [c]) ∨ Call.creates e.call)

theorem madeFor_nothing {items : List fileitem_sock_t} {fs : FileSystem} {call : Call}
    (h : NamedBy items call) : MadeFor items fs ⟨call,none⟩ := ⟨h,fun _ hch => by cases hch⟩

/-- What is new at `r` was made by a call of `es`. -/
def MadeAt (es : List Event) (r : Path) : Prop :=
  ∃ e ∈ es, Call.creates e.call ∧ ∃ p c n, e.change = some (.put p c n) ∧ r = p ++ [c]

theorem made_of_new {items : List fileitem_sock_t} {fs fs' : FileSystem} {es : List Event} {r : Path}
    (h : History (MadeFor items) fs es fs') (hnew : fs'.has r) : fs.has r ∨ MadeAt es r := by
  induction h with
  | nil => exact .inl hnew
  | @cons fs fs' e es he _ ih =>
    obtain hhas | ⟨e',he',hmade⟩ := ih hnew
    · by_cases hold : fs.has r
      · exact .inl hold
      · -- `e` has changed what stands at `r`
        obtain ⟨ch,hch,htouch⟩ : e.touches r := by
          by_contra hno
          rw [FileSystem.has,Event.node_apply hno] at hhas
          exact hold hhas
        obtain ⟨p,c,n,rfl,hwhere⟩ := he.2 ch hch
        obtain rfl : r = p ++ [c] := htouch
        obtain hthere | hcreates := hwhere
        · exact absurd hthere hold
        · exact .inr ⟨e,List.mem_cons_self,hcreates,p,c,n,hch,rfl⟩
    · exact .inr ⟨e',List.mem_cons_of_mem _ he',hmade⟩

section Calls

variable {sys : System} {items : List fileitem_sock_t}

theorem made_mkdir {s : Str} {mode : Nat}
    (hnamed : ∃ item ∈ items, item.file = s ∨ ∃ y, item.file = s ++ slash :: y) :
    Moves (Grown (MadeFor items)) (sys.mkdir s mode : DiskM _) := by
  refine System.moves_perform (fun _ => madeFor_nothing hnamed) fun fs pc ch hk => ?_
  obtain ⟨rfl,_,_⟩ := Kernel.makeEffect_ok hk
  refine ⟨hnamed,fun ch hch => ⟨pc.1,pc.2,_,(Option.some.inj hch).symm,.inr rfl⟩⟩

theorem made_openExcl {s : Str} {mode : Nat}
    (hnamed : ∃ item ∈ items, item.flag = 0x00 ∧ item.file = s) :
    Moves (Grown (MadeFor items)) (sys.openExcl s mode : DiskM _) := by
  refine System.moves_perform (fun _ => madeFor_nothing hnamed) fun fs pc ch hk => ?_
  obtain ⟨rfl,_,_⟩ := Kernel.makeEffect_ok hk
  exact ⟨hnamed,fun ch hch => ⟨pc.1,pc.2,_,(Option.some.inj hch).symm,.inr rfl⟩⟩

theorem made_write {p : Path} {c : Name} {off : Nat} {bytes : Str} :
    Moves (Grown (MadeFor items)) (sys.write p c off bytes : DiskM _) := by
  have hnamed : NamedBy items (.write p c) := trivial
  intro d
  rw [Leaves,System.write,wp_bind,wp_get]
  refine System.moves_perform (fun _ => madeFor_nothing hnamed) (fun fs n ch hk => ?_) d
  refine ⟨hnamed,fun ch' hch' => ?_⟩
  unfold Kernel.writeEffect at hk
  split_ifs at hk with hneg hnone
  · cases hk
    cases hch'
  · cases hf : Kernel.fileEffect p c (fun content mode =>
        .file (Kernel.overlay content off (bytes.take (sys.transfer d.tick).toNat)) mode) fs with
    | error e =>
      rw [hf] at hk
      cases hk
    | ok r =>
      obtain ⟨content,mode,hnode,hput⟩ := Kernel.fileEffect_ok hf
      rw [hf] at hk
      cases hk
      exact ⟨p,c,_,Option.some.inj (hch'.symm.trans hput),.inl (FileSystem.has_iff.mpr ⟨_,hnode⟩)⟩

theorem made_stat {s : Str} : Moves (Grown (MadeFor items)) (sys.stat s : DiskM _) := by
  refine System.moves_look (fun _ => madeFor_nothing trivial) fun fs n ch hk => ?_
  obtain rfl := System.statEffect_quiet hk
  exact madeFor_nothing trivial

theorem made_lstat {s : Str} : Moves (Grown (MadeFor items)) (sys.lstat s : DiskM _) := by
  refine System.moves_look (fun _ => madeFor_nothing trivial) fun fs n ch hk => ?_
  obtain rfl := System.lstatEffect_quiet hk
  exact madeFor_nothing trivial

theorem made_osStat {s : Str} : Moves (Grown (MadeFor items)) (osStat sys s) := by
  refine made_lstat.bind fun r => ?_
  cases r with
  | error e => exact moves_pure _
  | ok n =>
    refine Moves.map ?_
    cases n with
    | file content m => exact moves_pure _
    | dir m => exact moves_pure _
    | link t =>
      refine made_stat.bind fun r => ?_
      split <;> exact moves_pure _

theorem made_statNearestAncestor {n : Nat} {s : Str} :
    Moves (Grown (MadeFor items)) (statNearestAncestor sys n s) := by
  induction n generalizing s with
  | zero => exact moves_throw _
  | succ n ih =>
    refine made_stat.bind fun r => ?_
    cases r with
    | ok st => exact moves_pure _
    | error e => exact Moves.ite (moves_pure _) ih

theorem made_mkpathAlong {l : List Str} {mode : Nat} {exist_ok : Bool}
    (hl : ∀ s ∈ l, ∃ item ∈ items, item.file = s ∨ ∃ y, item.file = s ++ slash :: y) :
    Moves (Grown (MadeFor items)) (mkpathAlong sys mode exist_ok l) := by
  induction l with
  | nil => exact moves_pure _
  | cons s l ih =>
    have hrest := ih fun t ht => hl t (List.mem_cons_of_mem _ ht)
    refine (made_mkdir (hl s List.mem_cons_self)).bind fun r => ?_
    cases r with
    | ok made => exact hrest
    | error e => exact Moves.ite (moves_pure _) hrest

/-- Before the slashes of a path that leads to an item there are such paths. -/
theorem made_mkpathCopy {s : Str}
    (hs : s ≠ [] → ∃ item ∈ items, item.file = s ∨ ∃ y, item.file = s ++ slash :: y) :
    Moves (Grown (MadeFor items)) (mkpathCopyPermissionsFromNearestAncestor sys s true) := by
  have along : ∀ t ∈ partialPaths (s ++ [slash]),
      ∃ item ∈ items, item.file = t ∨ ∃ y, item.file = t ++ slash :: y := by
    intro t ht
    obtain ⟨htne,y,hy⟩ := mem_partialPaths ht
    have hsne : s ≠ [] := by
      rintro rfl
      cases t with
      | nil => exact htne rfl
      | cons b t => simp at hy
    obtain ⟨item,hitem,hfile⟩ := hs hsne
    refine ⟨item,hitem,?_⟩
    obtain rfl | ⟨z,b,rfl⟩ := List.eq_nil_or_concat' y
    · rw [List.append_cancel_right hy] at hfile
      exact hfile
    · rw [← List.cons_append,← List.append_assoc] at hy
      obtain ⟨rfl,_⟩ := List.append_inj' hy rfl
      right
      obtain hfile | ⟨w,hfile⟩ := hfile
      · exact ⟨z,hfile⟩
      · exact ⟨z ++ slash :: w,by rw [hfile]; simp⟩
  have hmkpath : ∀ mode, Moves (Grown (MadeFor items)) (mkpath sys s mode true) := fun mode =>
    Moves.ite (moves_pure _) (Moves.ite (moves_pure _) (made_mkpathAlong along))
  refine made_osStat.bind fun r => ?_
  cases r with
  | some letter =>
    refine Moves.ite (moves_pure _) (Moves.bind (moves_modify fun d => ?_) fun _ => moves_pure _)
    exact ⟨[],(List.append_nil _).symm,.nil _⟩
  | none =>
    refine made_statNearestAncestor.bind fun r => ?_
    cases r with
    | none => exact moves_pure _
    | some st => exact hmkpath (nodeMode st)

/-- On the disk only what is made for `items` is made. -/
def Receives (items : List fileitem_sock_t) (w w' : Transfer) : Prop :=
  Grown (MadeFor items) w.disk w'.disk

instance : Std.Refl (Receives items) := ⟨fun w => refl_of (Grown (MadeFor items)) w.disk⟩

instance : IsTrans Transfer (Receives items) :=
  ⟨fun _ _ _ h h' => trans_of (Grown (MadeFor items)) h h'⟩

theorem receives_of_disk {w w' : Transfer} (h : w'.disk = w.disk) : Receives items w w' := by
  rw [Receives,h]
  exact refl_of (Grown (MadeFor items)) w.disk

theorem receives_withDisk {α : Type} {x : DiskM α} (hx : Moves (Grown (MadeFor items)) x) :
    Moves (Receives items) (Transfer.withDisk x) := hx.run fun _ _ h => h

theorem receives_network {α : Type} (x : ConnM α) : Moves (Receives items) (Transfer.rclPart.run x) :=
  Moves.run (T := fun _ _ => True) (fun _ => wp_trivial (fun _ _ => trivial) fun _ _ => trivial)
    fun w _ _ => refl_of (Receives items) w

theorem receives_tell (cl : Bool) (c : Chunk) : Moves (Receives items) (tell cl c) := by
  have hwrites : Moves (Receives items) (Transfer.clPart.run (connDesc.writeAllOrExit c)) :=
    Moves.run (T := fun _ _ => True) (fun _ => wp_trivial (fun _ _ => trivial) fun _ _ => trivial)
      fun w _ _ => refl_of (Receives items) w
  exact Moves.ite hwrites (moves_pure _)

theorem receives_rewind : Moves (Receives items) Transfer.rewind :=
  moves_modify fun w => refl_of (Grown (MadeFor items)) w.disk

theorem receives_abandon {α : Type} : Moves (Receives items) (abandon : TransferM α) :=
  (receives_network _).bind fun _ => moves_throw _

theorem receives_write {output : Path × Name} (buf : Str) : Moves (Receives items)
    (Transfer.filePart.run ((outputFile sys output).writeAllOrExit buf)) := by
  let R := fun f f' : Disk × Nat => Grown (MadeFor items) f.1 f'.1
  have hrefl : Std.Refl R := ⟨fun f => refl_of (Grown (MadeFor items)) f.1⟩
  have htrans : IsTrans (Disk × Nat) R := ⟨fun _ _ _ h h' => trans_of (Grown (MadeFor items)) h h'⟩
  have hwrite : ∀ bs, Moves R ((outputFile sys output).write bs) := by
    intro bs
    refine moves_get.bind fun f => ?_
    refine Moves.bind (made_write.run fun _ _ h => h) fun r => ?_
    cases r with
    | error e => exact moves_pure _
    | ok n => exact Moves.bind (moves_modify fun f => refl_of R f) fun _ => moves_pure _
  have hloop : ∀ count turns bs, Moves R ((outputFile sys output).writeAllLoop count turns bs) := by
    intro count turns
    induction turns with
    | zero => exact fun bs => moves_throw _
    | succ turns ih =>
      intro bs
      refine (hwrite bs).bind fun n => Moves.ite (moves_pure _) ?_
      exact Moves.ite (moves_pure _) (ih _)
  have hall : Moves R ((outputFile sys output).writeAllOrExit buf) :=
    (hloop _ _ _).bind fun n => Moves.ite ((moves_pure _).bind fun _ => moves_throw _) (moves_pure _)
  exact hall.run fun _ _ h => h

theorem receives_chunks {cl : Bool} {output : Path × Name} {l : List Nat} {cur : Nat} :
    Moves (Receives items) (downloadChunks sys cl output l cur) := by
  induction l generalizing cur with
  | nil => exact moves_pure _
  | cons count l ih =>
    refine (receives_network _).bind fun buf => (receives_write buf).bind fun _ => ?_
    exact (receives_tell _ _).bind fun _ => ih

theorem receives_file {cl : Bool} {item : fileitem_sock_t} (hitem : item ∈ items)
    (hflag : item.flag = 0x00) :
    Moves (Receives items) (downloadFile sys cl item.file item.size) := by
  have hparent : getParentDir item.file ≠ [] → ∃ i ∈ items,
      i.file = getParentDir item.file ∨ ∃ y, i.file = getParentDir item.file ++ slash :: y := fun hne =>
    ⟨item,hitem,.inr (getParentDir_eq rfl hne)⟩
  refine (receives_withDisk (made_mkpathCopy hparent)).bind fun ret => Moves.ite receives_abandon ?_
  refine (receives_withDisk (made_openExcl ⟨item,hitem,hflag,rfl⟩)).bind fun r => ?_
  cases r with
  | error e => exact receives_abandon
  | ok output =>
    refine receives_rewind.bind fun _ => (receives_tell _ _).bind fun _ => ?_
    exact receives_chunks.bind fun _ => receives_tell _ _

theorem receives_dir {item : fileitem_sock_t} (hitem : item ∈ items) : Moves (Receives items)
    (Transfer.withDisk (mkpathCopyPermissionsFromNearestAncestor sys item.file true)) :=
  receives_withDisk (made_mkpathCopy fun _ => ⟨item,hitem,.inl rfl⟩)

end Calls

/-! ### Where the stream stands -/

/-- A result comes after `n` bytes of the stream. -/
def Passes {α : Type} (x : TransferM α) (n : Nat) : Prop :=
  ∀ w, wp x (fun _ w' => w'.rcl.inp = w.rcl.inp.drop n) (fun _ _ => True) w

section Stream

variable {α β : Type} {sys : System}

theorem Passes.bind {x : TransferM β} {f : β → TransferM α} {n m : Nat} (hx : Passes x n)
    (hf : ∀ b, Passes (f b) m) : Passes (x >>= f) (n+m) := by
  intro w
  rw [wp_bind]
  refine wp_mono (hx w) (fun b w₁ h₁ => ?_) fun _ _ h => h
  refine wp_mono (hf b w₁) (fun _ w₂ h₂ => ?_) fun _ _ h => h
  rw [h₂,h₁,List.drop_drop]

theorem Passes.skip {x : TransferM β} {f : β → TransferM α} {n : Nat} (hx : Passes x 0)
    (hf : ∀ b, Passes (f b) n) : Passes (x >>= f) n := by
  have h := hx.bind hf
  rwa [Nat.zero_add] at h

theorem passes_none {x : TransferM α} (hx : Moves SameConn x) : Passes x 0 := fun w =>
  wp_mono (hx w) (fun _ _ h => congrArg Conn.inp h) fun _ _ _ => trivial

theorem passes_tell (cl : Bool) (c : Chunk) : Passes (tell cl c) 0 := by
  cases cl with
  | false => exact passes_none (moves_pure ())
  | true =>
    refine passes_none (Moves.run (T := fun _ _ => True) (fun _ => ?_) fun _ _ _ => rfl)
    exact wp_trivial (fun _ _ => trivial) fun _ _ => trivial

theorem passes_stop {x : TransferM α} {n : Nat}
    (hx : ∀ w, wp x (fun _ _ => False) (fun _ _ => True) w) : Passes x n := fun w =>
  wp_mono (hx w) (fun _ _ h => h.elim) fun _ _ h => h

theorem passes_read (count : Nat) : Passes (networkDesc.readAllOrExit count) count := fun _ =>
  wp_networkRead (fun _ => rfl) fun _ _ => trivial

theorem passes_chunks {cl : Bool} {output : Path × Name} {l : List Nat} {cur : Nat} :
    Passes (downloadChunks sys cl output l cur) l.sum := by
  induction l generalizing cur with
  | nil => exact passes_none (moves_pure ())
  | cons count l ih =>
    rw [List.sum_cons]
    refine (passes_read count).bind fun buf => (passes_none (sameConn_file _)).skip fun _ => ?_
    exact (passes_tell _ _).skip fun _ => ih

theorem passes_file {cl : Bool} {path : Str} {size : Nat} :
    Passes (downloadFile sys cl path size) size := by
  have habandon : Passes (abandon : TransferM Unit) size := passes_stop fun w => by
    unfold abandon
    simp only [wp_bind,wp_run,close,wp_modify,wp_throw]
  refine (passes_none (sameConn_withDisk _)).skip fun ret => ?_
  split
  · exact habandon
  · refine (passes_none (sameConn_withDisk _)).skip fun r => ?_
    cases r with
    | error e => exact habandon
    | ok output =>
      refine (passes_none sameConn_rewind).skip fun _ => (passes_tell _ _).skip fun _ => ?_
      have hchunks : Passes (downloadChunks sys cl output (chunks REMOTE_IO_CHUNK_SIZE size) 0) size := by
        have h := @passes_chunks sys cl output (chunks REMOTE_IO_CHUNK_SIZE size) 0
        rwa [sum_chunks] at h
      exact hchunks.bind fun _ => passes_tell _ _

/-- An item is read as `nextItem` finds it. -/
theorem wp_fileitem {w : Transfer} {Q : fileitem_sock_t → Transfer → Prop}
    {E : Stop → Transfer → Prop}
    (hend : ∀ item w', item.flag = 0xFF → w'.disk = w.disk → Q item w')
    (hitem : ∀ item rest w', item.flag ≠ 0xFF → nextItem w.rcl.inp = some (item,rest) →
      w'.disk = w.disk → w'.rcl.inp = rest → Q item w')
    (hE : ∀ w', w'.disk = w.disk → E .threadExit w') : wp read_fileitem_sock_t Q E w := by
  unfold read_fileitem_sock_t Source.readU8
  rw [wp_bind,wp_bind]
  refine wp_networkRead (fun hone => ?_) hE
  cases hinp : w.rcl.inp with
  | nil =>
    rw [hinp] at hone
    exact absurd hone (by decide)
  | cons flag bs =>
    have hflag : (((flag :: bs).take 1).headD 0) = flag := rfl
    rw [wp_pure,hflag]
    by_cases hlast : flag = 0xFF
    · rw [if_pos hlast]
      exact hend _ _ hlast rfl
    · rw [if_neg hlast,wp_bind]
      refine wp_networkString (fun file hfile => ?_) hE
      change nextString bs = some file at hfile
      by_cases hzero : flag = 0x00
      · rw [if_pos hzero]
        unfold Source.readU64
        rw [wp_bind,wp_map]
        refine wp_networkRead (fun height => ?_) hE
        change 8 ≤ (bs.drop (2 + file.length)).length at height
        refine hitem _ _ _ hlast ?_ rfl rfl
        rw [hinp,nextItem,if_neg hlast,hfile]
        simp only
        rw [if_neg (not_not.mpr hzero),if_neg (Nat.not_lt.mpr height)]
        rfl
      · rw [if_neg hzero]
        refine hitem _ _ _ hlast ?_ rfl rfl
        rw [hinp,nextItem,if_neg hlast,hfile]
        simp only
        rw [if_pos hzero]
        rfl

end Stream

section Replies

variable {sys : System}

theorem receives_next {items : List fileitem_sock_t} {n : Nat} {α β : Type} {x : TransferM α}
    {f : α → TransferM β} {w w₀ : Transfer} (hw : Receives items w₀ w) (hx : Moves (Receives items) x)
    (hpasses : Passes x n) (hrest : ∀ a w₁, w₁.rcl.inp = w.rcl.inp.drop n →
      Leaves (Receives items w₁) (f a) w₁) : Leaves (Receives items w₀) (x >>= f) w := by
  rw [Leaves,wp_bind]
  refine wp_mono (wp_and (hx w) (hpasses w)) (fun a w₁ h₁ => ?_) fun _ w₁ h₁ => ?_
  · exact (hrest a w₁ h₁.2).since (trans_of (Receives items) hw h₁.1)
  · exact trans_of (Receives items) hw h₁.1

theorem receives_items {cl : Bool} {items : List fileitem_sock_t} {turns : Nat} {w : Transfer}
    (hitems : ∀ item ∈ itemsIn turns w.rcl.inp, item ∈ items) :
    Leaves (Receives items w) (downloadItems sys cl turns) w := by
  induction turns generalizing w with
  | zero => exact refl_of (Receives items) w
  | succ turns ih =>
    rw [downloadItems,Leaves,wp_bind]
    refine wp_fileitem (fun item w' hlast hdisk => ?_) (fun item rest w' hmore hnext hdisk hinp => ?_)
      fun _ hdisk => receives_of_disk hdisk
    · rw [if_pos hlast]
      exact receives_of_disk hdisk
    · rw [if_neg hmore]
      rw [itemsIn,hnext] at hitems
      simp only at hitems
      by_cases hfile : item.flag = 0x00
      · rw [if_pos hfile,List.forall_mem_cons] at hitems
        rw [if_pos hfile]
        refine receives_next (receives_of_disk hdisk) (receives_file hitems.1 hfile) passes_file
          fun _ w₁ h₁ => ?_
        rw [hinp] at h₁
        exact ih (by rw [h₁]; exact hitems.2)
      · rw [if_neg hfile] at hitems ⊢
        by_cases hdir : item.flag = 0x01
        · rw [if_pos hdir,List.forall_mem_cons] at hitems
          rw [if_pos hdir]
          refine receives_next (receives_of_disk hdisk) (receives_dir hitems.1)
            (passes_none (sameConn_withDisk _)) fun _ w₁ h₁ => ?_
          rw [hinp,List.drop_zero] at h₁
          exact ih (by rw [h₁]; exact hitems.2)
        · rw [if_neg hdir]
          exact (receives_abandon w').since (receives_of_disk hdisk)

theorem receives_reply (cl : Bool) (w : Transfer) :
    Leaves (Receives (replyItems w.rcl.inp) w) (downloadRemoteItems sys cl) w := by
  have number : Moves (Receives (replyItems w.rcl.inp)) networkDesc.readU64 := (receives_network _).map
  have passes : Passes networkDesc.readU64 8 := fun w => by
    unfold Source.readU64
    rw [wp_map]
    exact passes_read 8 w
  have told : ∀ c, Moves (Receives (replyItems w.rcl.inp)) (tell cl c) := receives_tell cl
  refine receives_next (refl_of (Receives _) w) number passes fun totalFiles w₁ h₁ => ?_
  refine receives_next (refl_of (Receives _) w₁) number passes fun totalSize w₂ h₂ => ?_
  refine receives_next (refl_of (Receives _) w₂) (told _) (passes_tell _ _) fun _ w₃ h₃ => ?_
  refine receives_next (refl_of (Receives _) w₃) (told _) (passes_tell _ _) fun _ w₄ h₄ => ?_
  have hinp : w₄.rcl.inp = w.rcl.inp.drop 16 := by
    rw [h₄,h₃,h₂,h₁]
    simp
  have hitems : ∀ item ∈ itemsIn (w₄.rcl.inp.length+1) w₄.rcl.inp, item ∈ replyItems w.rcl.inp := by
    rw [hinp]
    exact fun _ h => h
  rw [Leaves,wp_bind,wp_get,wp_bind]
  exact wp_mono (receives_items hitems) (fun _ w₅ h₅ => (told _ w₅).since h₅) fun _ _ h => h

/-- Before the reply is read, neither the disk nor the stream is touched. -/
def Beside (w w' : Transfer) : Prop := w'.disk = w.disk ∧ w'.rcl.inp = w.rcl.inp

instance : Std.Refl Beside := ⟨fun _ => ⟨rfl,rfl⟩⟩

instance : IsTrans Transfer Beside := ⟨fun _ _ _ h h' => ⟨h'.1.trans h.1,h'.2.trans h.2⟩⟩

theorem beside_client {α : Type} (x : ConnM α) : Moves Beside (Transfer.clPart.run x) :=
  Moves.run (T := fun _ _ => True) (fun _ => wp_trivial (fun _ _ => trivial) fun _ _ => trivial)
    fun _ _ _ => ⟨rfl,rfl⟩

theorem beside_pairs (turns : Nat) : Moves Beside (clDesc.receivePathPairsList turns) := by
  have number : Moves Beside clDesc.readU16 := (beside_client _).map
  have pair : Moves Beside clDesc.readPairOfStringsWithPairOfLens := by
    refine number.bind fun len₀ => number.bind fun len₁ => Moves.ite (moves_pure _) ?_
    exact (beside_client _).bind fun _ => (beside_client _).bind fun _ => moves_pure _
  induction turns with
  | zero => exact moves_throw _
  | succ turns ih =>
    exact pair.bind fun f => Moves.ite (moves_pure _) (ih.bind fun _ => moves_pure _)

theorem beside_pieces (pieces : List Str) : Moves Beside (writePieces pieces) := by
  induction pieces with
  | nil => exact moves_pure _
  | cons x pieces ih =>
    refine Moves.bind (Moves.run (L := Transfer.rclPart) (told_writeAllOrExit (.bytes x)) ?_) fun _ => ih
    exact fun _ _ htold => ⟨rfl,htold.1⟩

theorem receives_download (u : Transfer) :
    Leaves (Receives (replyItems u.rcl.inp) u) (client_download sys) u := by
  rw [client_download,Leaves,wp_bind,wp_get,wp_bind]
  refine wp_mono (beside_pairs _ u) (fun v u₁ h₁ => ?_) fun _ _ h => receives_of_disk h.1
  rw [wp_bind]
  refine wp_mono (beside_pieces _ u₁) (fun _ u₂ h₂ => ?_) fun _ u₂ h₂ =>
    receives_of_disk (trans_of Beside h₁ h₂).1
  have hboth := trans_of Beside h₁ h₂
  have hreply := @receives_reply sys true u₂
  rw [hboth.2] at hreply
  exact hreply.since (receives_of_disk hboth.1)

end Replies

/-- A file is made at or under a place that was asked for; a directory there, or on the way to such a
place. -/
def StaysUnder (cwd : Path) (v : List (Str × Str)) : Call → Prop
  | .openExcl s _ => ∃ x ∈ v, Inside cwd x.2 s
  | .mkdir s _ => ∃ x ∈ v, Inside cwd x.2 s ∨ ∃ y, Inside cwd x.2 (s ++ slash :: y)
  | _ => True

theorem staysUnder_of_named {cwd : Path} {v : List (Str × Str)} {items : List fileitem_sock_t}
    {call : Call} (hitems : ∀ item ∈ items, ∃ x ∈ v, Inside cwd x.2 item.file)
    (h : NamedBy items call) : StaysUnder cwd v call := by
  cases call with
  | openExcl s m =>
    obtain ⟨item,hitem,_,rfl⟩ := h
    exact hitems item hitem
  | mkdir s m =>
    obtain ⟨item,hitem,hfile⟩ := h
    obtain ⟨x,hx,hinside⟩ := hitems item hitem
    refine ⟨x,hx,?_⟩
    obtain rfl | ⟨y,hy⟩ := hfile
    · exact .inl hinside
    · exact .inr ⟨y,hy ▸ hinside⟩
  | _ => trivial

/-- What a download makes is what the items of the reply name, whatever the client has asked for. -/
theorem download_makes_named (sys : System) (u : Transfer) :
    Leaves (fun u' => ∃ es, u'.disk.log = u.disk.log ++ es ∧
      (∀ e ∈ es, NamedBy (replyItems u.rcl.inp) e.call) ∧
      (∀ r, u'.disk.fs.has r → u.disk.fs.has r ∨ MadeAt es r) ∧
      ∀ cwd v, (∀ item ∈ replyItems u.rcl.inp, ∃ x ∈ v, Inside cwd x.2 item.file) →
        ∀ e ∈ es, StaysUnder cwd v e.call) (client_download sys) u := by
  obtain ⟨es,hlog,hes⟩ := leaves_iff.mp (@receives_download sys u)
  have hnamed := hes.all fun _ _ he => he.1
  exact leaves_iff.mpr ⟨es,hlog,hnamed,fun r hr => made_of_new hes hr,
    fun cwd v hitems e he => staysUnder_of_named hitems (hnamed e he)⟩

/-- With a directory "/h", one pair is asked for, and this is the reply. -/
def asksForOne (src dest reply : Str) : Transfer :=
  ⟨⟨.ofEntries [([],.dir 0o755),([text ['h']],.dir 0o755)] (by decide),[],0,0⟩,0,
    ⟨pathPairsBytes [(src,dest)],[],none,false⟩,⟨reply,[],none,false⟩⟩

/-- "/h/d" is asked for, and "/h/e/f" is made. -/
def otherPlace : Transfer :=
  asksForOne (text ['/','s']) (text ['/','h','/','d']) (littleEndian 8 1 ++ littleEndian 8 1 ++
    (fileHeader (text ['/','h','/','e','/','f']) 1 ++ text ['x'] ++ [0xFF]))

theorem download_elsewhere :
    (∀ r ∈ otherPlace.disk.fs.paths, ¬ [text ['h'],text ['e']] <+: r) ∧
      (final (client_download .calm) otherPlace).disk.fs.isDir [text ['h'],text ['e']] ∧
      (final (client_download .calm) otherPlace).disk.fs.fileAt [text ['h'],text ['e'],text ['f']] =
        some (text ['x']) ∧
      ¬ resolve [] (text ['/','h','/','d']) <+: [text ['h'],text ['e'],text ['f']] := by
  decide +kernel

end RootHelper
