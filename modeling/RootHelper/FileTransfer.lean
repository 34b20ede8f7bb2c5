import RootHelper.CopyRound

/-!
The transfer loop of `oscopyfile`, worked out from what its system calls give: the pieces it
writes, what stands at the destination afterwards, and what the client has been told.
-/

set_option autoImplicit false

namespace RootHelper
open Posix Control

/-- What can be read from a place: nothing, unless a regular file stands there. -/
def contentAt (fs : FileSystem) (p : Path) : Str :=
  match fs.node p with
  | some (.file content _) => content
  | _ => []

section Effects

variable {fs : FileSystem} {amount : Int} {p : Path} {c : Name} {off count : Nat} {buf : Str}

theorem readEffect_eq :
    (((contentAt fs p).drop off).take count).take amount.toNat = [] ∧
        (Kernel.readEffect amount p off count fs = .ok ([],none) ∨
          ∃ e, Kernel.readEffect amount p off count fs = .error e) ∨
      (((contentAt fs p).drop off).take count).take amount.toNat ≠ [] ∧
        Kernel.readEffect amount p off count fs =
          .ok ((((contentAt fs p).drop off).take count).take amount.toNat,none) := by
  unfold Kernel.readEffect contentAt
  have nothing : ∀ e : Errno, ((([] : Str).drop off).take count).take amount.toNat = [] ∧
      ((.error e : Except Errno (Str × Option Change)) = .ok ([],none) ∨
        ∃ e', (.error e : Except Errno (Str × Option Change)) = .error e') :=
    fun e => ⟨by simp,.inr ⟨e,rfl⟩⟩
  cases hn : fs.node p with
  | none => exact .inl (nothing _)
  | some n =>
    cases n with
    | dir m => exact .inl (nothing _)
    | link t => exact .inl (nothing _)
    | file content m =>
      simp only
      split_ifs with ha
      · have hzero : amount.toNat = 0 := by omega
        exact .inl ⟨by rw [hzero,List.take_zero],.inr ⟨_,rfl⟩⟩
      · cases hb : ((content.drop off).take count).take amount.toNat with
        | nil => exact .inl ⟨rfl,.inl rfl⟩
        | cons b bs => exact .inr ⟨by simp,rfl⟩

theorem sendfileEffect_eq {input : Path} {inOff : Nat} {written : Str} {m : Nat}
    (h : fs.node (p ++ [c]) = some (.file written m)) :
    (((contentAt fs input).drop inOff).take count).take amount.toNat = [] ∧
        (Kernel.sendfileEffect amount input p c inOff off count fs = .ok (0,none) ∨
          ∃ e, Kernel.sendfileEffect amount input p c inOff off count fs = .error e) ∨
      (((contentAt fs input).drop inOff).take count).take amount.toNat ≠ [] ∧
        Kernel.sendfileEffect amount input p c inOff off count fs =
          .ok (((((contentAt fs input).drop inOff).take count).take amount.toNat).length,
            some (.put p c (.file (Kernel.overlay written off
              ((((contentAt fs input).drop inOff).take count).take amount.toNat)) m))) := by
  unfold Kernel.sendfileEffect
  rcases @readEffect_eq fs amount input inOff count with ⟨hb,hr | ⟨e,hr⟩⟩ | ⟨hb,hr⟩
  · exact .inl ⟨hb,.inl (by rw [hr]; rfl)⟩
  · exact .inl ⟨hb,.inr ⟨e,by rw [hr]; rfl⟩⟩
  · refine .inr ⟨hb,?_⟩
    rw [hr]
    have hall : ∀ bs : Str, bs.take (bs.length : Int).toNat = bs := by simp
    rcases @Kernel.writeEffect_eq fs (((((contentAt fs input).drop inOff).take count).take
      amount.toNat).length : Int) p c off ((((contentAt fs input).drop inOff).take count).take
        amount.toNat) written m h with ⟨hw,_⟩ | ⟨_,hw⟩
    · rw [hall] at hw
      exact absurd hw hb
    · rw [hall] at hw
      exact hw

end Effects

/-- What call number `tick` hands over of `avail`; nothing when it fails. -/
def CopyEnv.given (env : CopyEnv) (tick : Nat) (avail : Str) : Str :=
  if (env.refuse tick).isSome then [] else avail.take (env.transfer tick).toNat

/-- How many calls one turn makes. -/
def CopyEnv.turnCalls (env : CopyEnv) : Nat := if env.platform = .android32 then 2 else 1

/-- One turn with `rest` still to be read: the piece it writes and how far it reads. -/
def CopyEnv.turn (env : CopyEnv) (tick : Nat) (rest : Str) : Str × Nat :=
  let buf := env.given tick (rest.take COPY_CHUNK_SIZE)
  if env.platform = .android32 then (env.given (tick+1) buf,buf.length) else (buf,buf.length)

/-- What the loop writes, piece by piece, until a turn writes nothing. -/
def CopyEnv.pieces (env : CopyEnv) : Nat → Nat → Str → List Str
  | 0, _, _ => []
  | n+1, tick, rest =>
    if (env.turn tick rest).1 = [] then []
    else (env.turn tick rest).1 ::
      env.pieces n (tick + env.turnCalls) (rest.drop (env.turn tick rest).2)

variable {env : CopyEnv}

theorem given_length_le (tick : Nat) (avail : Str) :
    (env.given tick avail).length ≤ avail.length := by
  unfold CopyEnv.given
  split
  · simp
  · simp only [List.length_take]
    omega

theorem given_front (tick : Nat) (avail : Str) : env.given tick avail <+: avail := by
  unfold CopyEnv.given
  split
  · exact List.nil_prefix
  · exact List.take_prefix _ _

theorem turn_bounds (tick : Nat) (rest : Str) :
    (env.turn tick rest).1 <+: rest ∧ (env.turn tick rest).1.length ≤ (env.turn tick rest).2 ∧
      (env.turn tick rest).2 ≤ rest.length := by
  have hbuf := @given_front env tick (rest.take COPY_CHUNK_SIZE)
  have hrest : env.given tick (rest.take COPY_CHUNK_SIZE) <+: rest :=
    hbuf.trans (List.take_prefix _ _)
  unfold CopyEnv.turn
  split
  · refine ⟨(given_front _ _).trans hrest,given_length_le _ _,hrest.length_le⟩
  · exact ⟨hrest,le_refl _,hrest.length_le⟩

/-! ### One turn of the loop -/

section Turn

variable {input p : Path} {c : Name} {i o : Nat} {d : Disk} {written : Str} {m : Nat} {α : Type}
  {Q : α → Disk → Prop} {E : Stop → Disk → Prop}

theorem given_of_refused {tick : Nat} {e : Errno} {avail : Str} (h : env.refuse tick = some e) :
    env.given tick avail = [] := by
  simp [CopyEnv.given,h]

theorem given_of_granted {tick : Nat} {avail : Str} (h : env.refuse tick = none) :
    env.given tick avail = avail.take (env.transfer tick).toNat := by
  simp [CopyEnv.given,h]

theorem wp_read_given {buf : Str} {f : Except Errno Str → DiskM α}
    (hbuf : env.given d.tick (((contentAt d.fs input).drop i).take COPY_CHUNK_SIZE) = buf)
    (herror : ∀ e d', buf = [] → d'.fs = d.fs → wp (f (.error e)) Q E d')
    (hok : ∀ d', d'.fs = d.fs → d'.tick = d.tick+1 → wp (f (.ok buf)) Q E d') :
    wp (env.read input i COPY_CHUNK_SIZE >>= f) Q E d := by
  rw [wp_bind,System.read,wp_bind,wp_get]
  cases hr : env.refuse d.tick with
  | some e =>
    simp only [System.perform,wp_bind,wp_get,hr,System.wp_settle,System.settled]
    exact herror e _ (hbuf.symm.trans (given_of_refused hr)) rfl
  | none =>
    rw [System.wp_perform_granted hr]
    have hgiven := hbuf.symm.trans (given_of_granted hr)
    rcases @readEffect_eq d.fs (env.transfer d.tick) input i COPY_CHUNK_SIZE with
      ⟨hb,hk | ⟨e,hk⟩⟩ | ⟨hb,hk⟩
    · rw [hk,← hgiven.trans hb]
      exact hok _ rfl rfl
    · rw [hk]
      exact herror e _ (hgiven.trans hb) rfl
    · rw [hk,← hgiven]
      exact hok _ rfl rfl

theorem wp_write_given {x : Byte} {xs taken : Str} {f : Except Errno Nat → DiskM α}
    (hout : d.fs.node (p ++ [c]) = some (.file written m)) (htaken : env.given d.tick (x :: xs) = taken)
    (herror : ∀ e d', taken = [] → d'.fs = d.fs → wp (f (.error e)) Q E d')
    (hnothing : ∀ d', taken = [] → d'.fs = d.fs → wp (f (.ok 0)) Q E d')
    (hok : ∀ d', taken ≠ [] → d'.tick = d.tick+1 →
      d'.fs = (Change.put p c (.file (Kernel.overlay written o taken) m)).apply d.fs →
      wp (f (.ok taken.length)) Q E d') : wp (env.write p c o (x :: xs) >>= f) Q E d := by
  rw [wp_bind]
  simp only [System.write,wp_bind,wp_get]
  cases hr : env.refuse d.tick with
  | some e =>
    simp only [System.perform,wp_bind,wp_get,hr,System.wp_settle,System.settled]
    exact herror e _ (htaken.symm.trans (given_of_refused hr)) rfl
  | none =>
    rw [System.wp_perform_granted hr]
    have hgiven := htaken.symm.trans (given_of_granted hr)
    rcases @Kernel.writeEffect_eq d.fs (env.transfer d.tick) p c o (x :: xs) written m hout with
      ⟨hw,hk | ⟨e,hk⟩⟩ | ⟨hw,hk⟩
    · rw [hk]
      exact hnothing _ (hgiven.trans hw) rfl
    · rw [hk]
      exact herror e _ (hgiven.trans hw) rfl
    · rw [hk,← hgiven]
      exact hok _ (hgiven ▸ hw) rfl rfl

theorem wp_sendfile_given {sent : Str} {f : Except Errno Nat → DiskM α}
    (hout : d.fs.node (p ++ [c]) = some (.file written m))
    (hsent : env.given d.tick (((contentAt d.fs input).drop i).take COPY_CHUNK_SIZE) = sent)
    (herror : ∀ e d', sent = [] → d'.fs = d.fs → wp (f (.error e)) Q E d')
    (hnothing : ∀ d', sent = [] → d'.fs = d.fs → wp (f (.ok 0)) Q E d')
    (hok : ∀ d', sent ≠ [] → d'.tick = d.tick+1 →
      d'.fs = (Change.put p c (.file (Kernel.overlay written o sent) m)).apply d.fs →
      wp (f (.ok sent.length)) Q E d') :
    wp (env.sendfile input p c i o COPY_CHUNK_SIZE >>= f) Q E d := by
  rw [wp_bind,System.sendfile,wp_bind,wp_get]
  cases hr : env.refuse d.tick with
  | some e =>
    simp only [System.perform,wp_bind,wp_get,hr,System.wp_settle,System.settled]
    exact herror e _ (hsent.symm.trans (given_of_refused hr)) rfl
  | none =>
    rw [System.wp_perform_granted hr]
    have hgiven := hsent.symm.trans (given_of_granted hr)
    rcases @sendfileEffect_eq d.fs (env.transfer d.tick) p c o COPY_CHUNK_SIZE input i written m
      hout with ⟨hb,hk | ⟨e,hk⟩⟩ | ⟨hb,hk⟩
    · rw [hk]
      exact hnothing _ (hgiven.trans hb) rfl
    · rw [hk]
      exact herror e _ (hgiven.trans hb) rfl
    · rw [hk,← hgiven]
      exact hok _ (hgiven ▸ hb) rfl rfl

variable {Q : Int × Nat × Nat → Disk → Prop}

theorem wp_copyChunk_buffered (hplat : env.platform = .android32)
    (hout : d.fs.node (p ++ [c]) = some (.file written m))
    (hstop : ∀ w i' o' d', (env.turn d.tick ((contentAt d.fs input).drop i)).1 = [] → w ≤ 0 →
      d'.fs = d.fs → Q (w,i',o') d')
    (hgo : ∀ d', (env.turn d.tick ((contentAt d.fs input).drop i)).1 ≠ [] →
      d'.fs = (Change.put p c (.file (Kernel.overlay written o
        (env.turn d.tick ((contentAt d.fs input).drop i)).1) m)).apply d.fs →
      d'.tick = d.tick + env.turnCalls →
      Q ((env.turn d.tick ((contentAt d.fs input).drop i)).1.length,
        i + (env.turn d.tick ((contentAt d.fs input).drop i)).2,
        o + (env.turn d.tick ((contentAt d.fs input).drop i)).1.length) d') :
    wp (copyChunk env input (p,c) i o) Q E d := by
  have hturn : env.turn d.tick ((contentAt d.fs input).drop i) =
      (env.given (d.tick+1)
        (env.given d.tick (((contentAt d.fs input).drop i).take COPY_CHUNK_SIZE)),
        (env.given d.tick (((contentAt d.fs input).drop i).take COPY_CHUNK_SIZE)).length) := by
    simp [CopyEnv.turn,hplat]
  have hcalls : env.turnCalls = 2 := by simp [CopyEnv.turnCalls,hplat]
  rw [hturn] at hstop hgo
  rw [hcalls] at hgo
  generalize hbuf : env.given d.tick (((contentAt d.fs input).drop i).take COPY_CHUNK_SIZE) = buf
    at hstop hgo
  simp only at hstop hgo
  have hnothing : buf = [] → env.given (d.tick+1) buf = [] := by
    intro h
    simpa [h] using @given_length_le env (d.tick+1) []
  simp only [copyChunk,hplat]
  refine wp_read_given hbuf (fun e d₁ hnone hfs => hstop _ _ _ _ (hnothing hnone) (by simp) hfs)
    fun d₁ hfs htick => ?_
  cases buf with
  | nil => exact hstop _ _ _ _ (hnothing rfl) (by simp) hfs
  | cons x xs =>
    have htaken : env.given d₁.tick (x :: xs) = env.given (d.tick+1) (x :: xs) := by rw [htick]
    refine wp_write_given (o := o) (by rw [hfs]; exact hout) htaken
      (fun e d₂ hnone hfs₂ => hstop _ _ _ _ hnone (by simp) (hfs₂.trans hfs))
      (fun d₂ hnone hfs₂ => hstop _ _ _ _ hnone (by simp) (hfs₂.trans hfs)) fun d₂ hsome htick₂ hfs₂ => ?_
    exact hgo d₂ hsome (by rw [hfs₂,hfs]) (by rw [htick₂,htick])

theorem wp_copyChunk (hout : d.fs.node (p ++ [c]) = some (.file written m))
    (hstop : ∀ w i' o' d', (env.turn d.tick ((contentAt d.fs input).drop i)).1 = [] → w ≤ 0 →
      d'.fs = d.fs → Q (w,i',o') d')
    (hgo : ∀ d', (env.turn d.tick ((contentAt d.fs input).drop i)).1 ≠ [] →
      d'.fs = (Change.put p c (.file (Kernel.overlay written o
        (env.turn d.tick ((contentAt d.fs input).drop i)).1) m)).apply d.fs →
      d'.tick = d.tick + env.turnCalls →
      Q ((env.turn d.tick ((contentAt d.fs input).drop i)).1.length,
        i + (env.turn d.tick ((contentAt d.fs input).drop i)).2,
        o + (env.turn d.tick ((contentAt d.fs input).drop i)).1.length) d') :
    wp (copyChunk env input (p,c) i o) Q E d := by
  by_cases hplat : env.platform = .android32
  · exact wp_copyChunk_buffered hplat hout hstop hgo
  · have hturn : env.turn d.tick ((contentAt d.fs input).drop i) =
        (env.given d.tick (((contentAt d.fs input).drop i).take COPY_CHUNK_SIZE),
          (env.given d.tick (((contentAt d.fs input).drop i).take COPY_CHUNK_SIZE)).length) := by
      simp [CopyEnv.turn,hplat]
    have hcalls : env.turnCalls = 1 := by simp [CopyEnv.turnCalls,hplat]
    rw [hturn] at hstop hgo
    rw [hcalls] at hgo
    simp only at hstop hgo
    unfold copyChunk
    -- the platforms differ in what they make of an error
    cases hp : env.platform with
    | android32 => exact absurd hp hplat
    | linux | apple | bsd =>
      exact wp_sendfile_given hout rfl (fun e d' hnone hfs => hstop _ _ _ _ hnone (by simp) hfs)
        (fun d' hnone hfs => hstop _ _ _ _ hnone (by simp) hfs) fun d' hsome htick hfs =>
          hgo d' hsome hfs htick

end Turn

/-! ### The loop -/

/-- What the client is told after each piece. -/
def progressChunks : Nat → List Str → List Chunk
  | _, [] => []
  | progress, q :: qs => .u64 (progress + q.length) :: progressChunks (progress + q.length) qs

theorem progressChunks_length (progress : Nat) (qs : List Str) :
    (progressChunks progress qs).length = qs.length := by
  induction qs generalizing progress with
  | nil => rfl
  | cons q qs ih => simp [progressChunks,ih]

/-- From `f` to `f'` only the file at `out` was written, and it holds `content`. -/
structure Wrote (out : Path) (content : Str) (m : Nat) (f f' : FileSystem) : Prop where
  node : f'.node out = some (.file content m)
  others : ∀ r, r ≠ out → f'.node r = f.node r

theorem Wrote.trans {out : Path} {content content' : Str} {m m' : Nat} {f f' f'' : FileSystem}
    (h : Wrote out content m f f') (h' : Wrote out content' m' f' f'') : Wrote out content' m' f f'' :=
  ⟨h'.node,fun r hr => (h'.others r hr).trans (h.others r hr)⟩

theorem canPut_file {fs : FileSystem} {p : Path} {c : Name} {content content' : Str} {m m' : Nat}
    (h : fs.node (p ++ [c]) = some (.file content m)) : fs.CanPut p c (.file content' m') := by
  have hparent := fs.parent p c (by simp [h])
  exact ⟨hparent.1,hparent.2,fun hd => by simp [FileSystem.isDir,h,Node.isDir] at hd⟩

theorem wrote_put {fs : FileSystem} {p : Path} {c : Name} {content content' : Str} {m m' : Nat}
    (h : fs.node (p ++ [c]) = some (.file content m)) :
    Wrote (p ++ [c]) content' m' fs ((Change.put p c (.file content' m')).apply fs) := by
  have hput := Change.node_put (@canPut_file _ _ _ _ content' _ m' h)
  exact ⟨by rw [hput,if_pos rfl],fun r hr => by rw [hput,if_neg hr]⟩

theorem contentAt_wrote {out input : Path} {content : Str} {m : Nat} {f f' : FileSystem}
    (h : Wrote out content m f f') (hne : input ≠ out) : contentAt f' input = contentAt f input := by
  unfold contentAt
  rw [h.others input hne]

section Loop

variable {input p : Path} {c : Name} {m : Nat} {Q : Unit → CopyState → Prop}
  {E : Stop → CopyState → Prop}

theorem wp_copyChunks {n i progress : Nat} {s : CopyState} {written : Str} (hne : input ≠ p ++ [c])
    (hout : s.disk.fs.node (p ++ [c]) = some (.file written m)) (hopen : s.sock.closed = false)
    (hfuel : ((contentAt s.disk.fs input).drop i).length < n)
    (hQ : ∀ d ps, ps = env.pieces n s.disk.tick ((contentAt s.disk.fs input).drop i) →
      Wrote (p ++ [c]) (written ++ ps.flatten) m s.disk.fs d.fs → s.sock.takes ps.length →
      Q () { s with disk := d, sock := s.sock.sent (progressChunks progress ps) })
    (hE : ∀ t ps cs, ps = env.pieces n s.disk.tick ((contentAt s.disk.fs input).drop i) →
      ¬ s.sock.takes ps.length → cs <+: progressChunks progress ps →
      t.sock.out = s.sock.out ++ cs → E .threadExit t) :
    wp (copyChunks env input (p,c) n i written.length progress) Q E s := by
  induction n generalizing i progress s written with
  | zero => simp at hfuel
  | succ n ih =>
    have hbounds := @turn_bounds env s.disk.tick ((contentAt s.disk.fs input).drop i)
    have htakes : s.sock.takes 0 := ⟨hopen,fun _ _ => Nat.zero_le _⟩
    rw [copyChunks,wp_bind,wp_onDisk]
    refine wp_copyChunk hout (fun w i' o' d' hnone hw hfs => ?_) fun d' hsome hfs htick => ?_
    · simp only [hw,if_true,wp_pure]
      have hps : env.pieces (n+1) s.disk.tick ((contentAt s.disk.fs input).drop i) = [] := by
        simp [CopyEnv.pieces,hnone]
      have hdone := hQ d' [] hps.symm (by rw [hfs]; exact ⟨by simpa using hout,fun _ _ => rfl⟩) htakes
      simpa [progressChunks] using hdone
    · generalize hturn : env.turn s.disk.tick ((contentAt s.disk.fs input).drop i) = tu at *
      obtain ⟨piece,used⟩ := tu
      simp only at hsome hfs hbounds ⊢
      have hpos : 0 < piece.length := List.length_pos_of_ne_nil hsome
      have hnotzero : ¬ (piece.length : Int) ≤ 0 := by omega
      rw [if_neg hnotzero,Int.toNat_natCast,wp_bind,wp_send_iff (by simp [Chunk.encode,littleEndian])]
      have hps : env.pieces (n+1) s.disk.tick ((contentAt s.disk.fs input).drop i) = piece ::
          env.pieces n d'.tick ((contentAt s.disk.fs input).drop (i + used)) := by
        simp only [CopyEnv.pieces,hturn,if_neg hsome,htick,List.drop_drop]
      have hwrote : Wrote (p ++ [c]) (written ++ piece) m s.disk.fs d'.fs := by
        rw [hfs,Kernel.overlay_at_end]
        exact wrote_put hout
      have hcontent := contentAt_wrote hwrote hne
      refine ⟨fun htake => ?_,fun hfull => ?_⟩
      · have hlen : (written ++ piece).length = written.length + piece.length := List.length_append
        rw [← hlen]
        have hsent : ∀ k, (s.sock.sent [.u64 (progress + piece.length)]).takes k ↔
            s.sock.takes (1 + k) := fun k => Conn.takes_sent htake
        refine ih (s := { s with disk := d', sock := s.sock.sent [.u64 (progress + piece.length)] })
          hwrote.node hopen ?_ (fun d ps hpseq hd hk => ?_) (fun t ps cs hpseq hk hcs ht => ?_)
        · change ((contentAt d'.fs input).drop (i + used)).length < n
          rw [hcontent]
          simp only [List.length_drop] at hfuel hbounds ⊢
          omega
        · change ps = env.pieces n d'.tick ((contentAt d'.fs input).drop (i + used)) at hpseq
          change (s.sock.sent [.u64 (progress + piece.length)]).takes ps.length at hk
          rw [hcontent] at hpseq
          have hdone := hQ d (piece :: ps) (by rw [hps,hpseq])
            (by simpa using hwrote.trans hd) (by rw [hsent] at hk; simpa [Nat.add_comm] using hk)
          simpa [progressChunks,Conn.sent_sent] using hdone
        · change ps = env.pieces n d'.tick ((contentAt d'.fs input).drop (i + used)) at hpseq
          change ¬ (s.sock.sent [.u64 (progress + piece.length)]).takes ps.length at hk
          rw [hcontent] at hpseq
          refine hE t (piece :: ps) (.u64 (progress + piece.length) :: cs) (by rw [hps,hpseq])
            (by rw [hsent] at hk; simpa [Nat.add_comm] using hk) ?_ ?_
          · simpa [progressChunks] using hcs
          · rw [ht]
            simp [Conn.sent]
      · refine hE _ (piece :: _) [] hps.symm (fun hall => hfull ?_) (by simp) (by simp)
        exact ⟨hall.1,fun r hr => le_trans (by simp) (hall.2 r hr)⟩

/-- What the loop writes of a whole file. -/
def CopyEnv.written (env : CopyEnv) (tick : Nat) (content : Str) : List Str :=
  env.pieces (content.length+1) tick content

theorem pieces_of_nothing (n tick : Nat) : env.pieces n tick [] = [] := by
  cases n with
  | zero => rfl
  | succ n =>
    have hnone : (env.turn tick []).1 = [] := by
      simpa using (@turn_bounds env tick []).1
    simp [CopyEnv.pieces,hnone]

/-- What a client is told about one file. -/
def transferChunks (size : Nat) (ps : List Str) : List Chunk :=
  .u64 size :: progressChunks 0 ps

theorem wp_copyContent {m₀ : Nat} {s : CopyState} (hne : input ≠ p ++ [c])
    (hout : s.disk.fs.node (p ++ [c]) = some (.file [] m₀))
    (hQ : ∀ d ps m, ps = env.written s.disk.tick (contentAt s.disk.fs input) →
      Wrote (p ++ [c]) ps.flatten m s.disk.fs d.fs →
      ((∀ t, env.refuse t = none) → m = System.modeOf s.disk.fs input) →
      s.sock.takes (ps.length + 2) →
      Q () { s with
        disk := d
        sock := s.sock.sent (transferChunks (env.sizeOf s.disk.fs input) ps ++ [.u64 EOF_ind]) })
    (hE : ∀ t ps cs, ps = env.written s.disk.tick (contentAt s.disk.fs input) →
      ¬ s.sock.takes (ps.length + 2) → cs <+: transferChunks (env.sizeOf s.disk.fs input) ps →
      t.sock.out = s.sock.out ++ cs → E .threadExit t) :
    wp (copyContent env input (p,c)) Q E s := by
  generalize hps : env.written s.disk.tick (contentAt s.disk.fs input) = ps at hQ hE
  have hloop : env.pieces (env.sizeOf s.disk.fs input + 1) s.disk.tick
      ((contentAt s.disk.fs input).drop 0) = ps ∧
      ((contentAt s.disk.fs input).drop 0).length < env.sizeOf s.disk.fs input + 1 := by
    rw [← hps,List.drop_zero]
    unfold CopyEnv.written contentAt System.sizeOf
    cases hn : s.disk.fs.node input with
    | none => simp [pieces_of_nothing]
    | some n => cases n <;> simp [pieces_of_nothing]
  have more : ∀ k n, k ≤ n → s.sock.takes n → s.sock.takes k := fun k n hkn h =>
    ⟨h.1,fun r hr => hkn.trans (h.2 r hr)⟩
  simp only [copyContent,wp_bind,wp_get]
  rw [wp_send_iff (by simp [Chunk.encode,littleEndian])]
  refine ⟨fun htake => ?_,fun hfull => ?_⟩
  · have hsent : ∀ k, (s.sock.sent [.u64 (env.sizeOf s.disk.fs input)]).takes k ↔
        s.sock.takes (1 + k) := fun k => Conn.takes_sent htake
    refine @wp_copyChunks env input p c m₀ _ _ _ _ _ _ [] hne hout htake.1 hloop.2 (fun d qs hqs hd hk => ?_)
      fun t qs cs hqs hk hcs ht => ?_
    · obtain rfl : qs = ps := hqs.trans hloop.1
      rw [hsent] at hk
      rw [List.nil_append] at hd
      have hsent' : ∀ k, ((s.sock.sent [.u64 (env.sizeOf s.disk.fs input)]).sent
          (progressChunks 0 qs)).takes k ↔ s.sock.takes (1 + qs.length + k) := by
        intro k
        rw [Conn.sent_sent]
        have hlen : ([Chunk.u64 (env.sizeOf s.disk.fs input)] ++ progressChunks 0 qs).length =
            1 + qs.length := by simp [progressChunks_length,Nat.add_comm]
        rw [Conn.takes_sent (by rw [hlen]; exact hk),hlen]
      rw [wp_send_iff (by simp [Chunk.encode,littleEndian])]
      refine ⟨fun hlast => ?_,fun hfull => ?_⟩
      · rw [wp_onDisk]
        have htakes : s.sock.takes (qs.length + 2) := by
          rw [hsent'] at hlast
          exact more _ _ (by omega) hlast
        have hsock : ((s.sock.sent [.u64 (env.sizeOf s.disk.fs input)]).sent
            (progressChunks 0 qs)).sent [.u64 EOF_ind] = s.sock.sent
              (transferChunks (env.sizeOf s.disk.fs input) qs ++ [.u64 EOF_ind]) := by
          simp [Conn.sent_sent,transferChunks]
        have hmode : System.modeOf d.fs input = System.modeOf s.disk.fs input := by
          unfold System.modeOf
          rw [hd.others input hne]
        unfold System.fchmod
        cases hr : env.refuse d.tick with
        | some e =>
          simp only [System.perform,wp_bind,wp_get,hr,System.wp_settle,System.settled]
          rw [hsock]
          exact hQ (d.failed _ e) qs m₀ rfl hd (fun h => by simp [h] at hr) htakes
        | none =>
          rw [System.wp_perform_granted hr]
          simp only [Kernel.fileEffect,hd.node,System.settled]
          rw [hsock,hmode]
          refine hQ (d.done ⟨_,some _⟩) qs (System.modeOf s.disk.fs input) rfl
            (hd.trans ?_) (fun _ => rfl) htakes
          exact wrote_put hd.node
      · rw [hsent'] at hfull
        refine hE _ qs (transferChunks (env.sizeOf s.disk.fs input) qs) rfl
          (fun h => hfull (more _ _ (by omega) h)) List.prefix_rfl ?_
        simp [Conn.sent,transferChunks]
    · obtain rfl : qs = ps := hqs.trans hloop.1
      rw [hsent] at hk
      refine hE t qs (.u64 (env.sizeOf s.disk.fs input) :: cs) rfl
        (fun h => hk (more _ _ (by omega) h)) ?_ ?_
      · simpa [transferChunks] using hcs
      · rw [ht]
        simp [Conn.sent]
  · exact hE _ ps [] rfl (fun h => hfull (more _ _ (by omega) h)) (by simp) (by simp)

/-- Both files of a copy, when both can be opened. -/
def CopyEnv.opens (env : CopyEnv) (d : Disk) (source destination : Str) :
    Option (Path × Path × Name) :=
  if (env.refuse d.tick).isSome ∨ (env.refuse (d.tick+1)).isSome then none
  else match env.openReadEffect source d.fs, env.openCreateEffect destination 0o644 d.fs with
    | .ok (input,_), .ok (output,_) => some (input,output)
    | _, _ => none

theorem wp_oscopyfile_eq {source destination : Str} {s : CopyState} {Q : CopyRet → CopyState → Prop}
    (hfree : efdAt env.toKernel s.disk.fs destination = .none)
    (hfail : ∀ d, env.opens s.disk source destination = none → d.fs = s.disk.fs →
      Q .UNSOLVABLE_ERROR_TYPE { s with disk := d })
    (hdone : ∀ input p c d ps m, env.opens s.disk source destination = some (input,p,c) →
      env.follow s.disk.fs source = .ok input → s.disk.fs.has input →
      env.glance s.disk.fs destination = .ok (p ++ [c]) → ¬ s.disk.fs.has (p ++ [c]) →
      ps = env.written (s.disk.tick+2) (contentAt s.disk.fs input) →
      Wrote (p ++ [c]) ps.flatten m s.disk.fs d.fs →
      ((∀ t, env.refuse t = none) → m = System.modeOf s.disk.fs input) →
      s.sock.takes (ps.length + 2) →
      Q .OK_TYPE { s with
        disk := d
        sock := s.sock.sent (transferChunks (env.sizeOf s.disk.fs input) ps ++ [.u64 EOF_ind]) })
    (hE : ∀ input output t ps cs, env.opens s.disk source destination = some (input,output) →
      ps = env.written (s.disk.tick+2) (contentAt s.disk.fs input) →
      ¬ s.sock.takes (ps.length + 2) → cs <+: transferChunks (env.sizeOf s.disk.fs input) ps →
      t.sock.out = s.sock.out ++ cs → E .threadExit t) :
    wp (oscopyfile env source destination) Q E s := by
  rw [oscopyfile,wp_bind,wp_onDisk,System.openRead]
  cases hr : env.refuse s.disk.tick with
  | some e =>
    simp only [System.perform,wp_bind,wp_get,hr,System.wp_settle,System.settled]
    exact hfail _ (by simp [CopyEnv.opens,hr]) rfl
  | none =>
    rw [System.wp_perform_granted hr]
    cases hk : env.openReadEffect source s.disk.fs with
    | error e => exact hfail _ (by simp [CopyEnv.opens,hk]) rfl
    | ok r =>
      obtain ⟨input,ch⟩ := r
      obtain ⟨rfl,hfollow,hhas⟩ := System.openReadEffect_ok hk
      simp only [System.settled,wp_bind]
      rw [wp_onDisk,System.openCreate]
      cases hr' : env.refuse (s.disk.tick+1) with
      | some e =>
        simp only [System.perform,wp_bind,wp_get,Disk.done,hr',System.wp_settle,System.settled]
        exact hfail _ (by simp [CopyEnv.opens,hr']) rfl
      | none =>
        rw [System.wp_perform_granted hr']
        change System.settled _ _ _ (env.openCreateEffect destination 0o644 s.disk.fs)
        cases hk' : env.openCreateEffect destination 0o644 s.disk.fs with
        | error e => exact hfail _ (by simp [CopyEnv.opens,hk']) rfl
        | ok r =>
          obtain ⟨⟨p,c⟩,ch⟩ := r
          obtain ⟨hglance,hnone,rfl⟩ := Kernel.openCreateEffect_free hk' (not_has_of_efdAt hfree)
          obtain ⟨hdir,hproper,_⟩ := Kernel.openCreateEffect_ok hk'
          have hopens : env.opens s.disk source destination = some (input,p,c) := by
            simp [CopyEnv.opens,hr,hr',hk,hk']
          have hcan : s.disk.fs.CanPut p c (.file [] (env.masked 0o644)) := by
            refine ⟨hdir,hproper,fun hd => ?_⟩
            exact absurd (FileSystem.has_of_isDir hd) hnone
          have hput := Change.node_put hcan
          have hne : input ≠ p ++ [c] := fun e => hnone (e ▸ hhas)
          simp only [System.settled,wp_bind]
          -- the file just made is empty, everything else is as it was
          generalize hd : (Disk.done (s.disk.done ⟨.openRead source,none⟩)
            ⟨.openCreate destination 0o644,some (.put p c (.file [] (env.masked 0o644)))⟩) = d
          have hfs : Wrote (p ++ [c]) [] (env.masked 0o644) s.disk.fs d.fs := by
            subst hd
            exact ⟨by simp [Disk.done,Event.apply,hput],fun r hr => by simp [Disk.done,Event.apply,hput,hr]⟩
          have htick : d.tick = s.disk.tick + 2 := by
            subst hd
            rfl
          have hcontent : contentAt d.fs input = contentAt s.disk.fs input :=
            contentAt_wrote hfs hne
          have hsame : d.fs.node input = s.disk.fs.node input := hfs.others input hne
          have hsize : env.sizeOf d.fs input = env.sizeOf s.disk.fs input := by
            simp only [System.sizeOf,hsame]
          have hmode : System.modeOf d.fs input = System.modeOf s.disk.fs input := by
            simp only [System.modeOf,hsame]
          refine wp_copyContent hne hfs.node (fun d' ps m hps hw hm htakes => ?_)
            fun t ps cs hps htakes hcs ht => ?_
          · simp only [hcontent,htick,hsize,hmode] at hps hm ⊢
            exact hdone input p c d' ps m hopens hfollow hhas hglance hnone hps (hfs.trans hw) hm htakes
          · simp only [hcontent,htick,hsize] at hps hcs
            exact hE input (p,c) t ps cs hopens hps htakes hcs ht

end Loop

/-- Every turn of the loop moves something and writes all it has read, until `rest` is at its
end. -/
def CopyEnv.transfersAll (env : CopyEnv) : Nat → Nat → Str → Bool
  | 0, _, rest => rest = []
  | n+1, tick, rest => rest = [] ∨ (env.turn tick rest).1 ≠ [] ∧
      (env.turn tick rest).1.length = (env.turn tick rest).2 ∧
      env.transfersAll n (tick + env.turnCalls) (rest.drop (env.turn tick rest).2)

theorem pieces_length_le (n tick : Nat) (rest : Str) :
    (env.pieces n tick rest).flatten.length ≤ rest.length := by
  induction n generalizing tick rest with
  | zero => simp [CopyEnv.pieces]
  | succ n ih =>
    obtain ⟨_,hlen,hused⟩ := @turn_bounds env tick rest
    unfold CopyEnv.pieces
    split
    · simp
    · have hrest := ih (tick + env.turnCalls) (rest.drop (env.turn tick rest).2)
      rw [List.length_drop] at hrest
      rw [List.flatten_cons,List.length_append]
      omega

theorem pieces_all_iff (n tick : Nat) (rest : Str) (hn : rest.length < n) :
    (env.pieces n tick rest).flatten = rest ↔ env.transfersAll n tick rest := by
  induction n generalizing tick rest with
  | zero => omega
  | succ n ih =>
    obtain ⟨hpre,hlen,hused⟩ := @turn_bounds env tick rest
    unfold CopyEnv.pieces CopyEnv.transfersAll
    by_cases hrest : rest = []
    · have hnone : (env.turn tick rest).1 = [] := by
        rw [hrest] at hpre ⊢
        exact List.prefix_nil.mp hpre
      rw [if_pos hnone]
      simp [hrest]
    · generalize env.turn tick rest = tu at *
      obtain ⟨piece,used⟩ := tu
      obtain ⟨tail,rfl⟩ := hpre
      simp only [List.length_append] at hlen hused hn hrest ⊢
      by_cases hnone : piece = []
      · have htail : tail ≠ [] := by simpa [hnone] using hrest
        rw [if_pos hnone]
        simp [hnone,htail,htail.symm]
      · have hpos : 0 < piece.length := List.length_pos_of_ne_nil hnone
        have hle := @pieces_length_le env n (tick + env.turnCalls) ((piece ++ tail).drop used)
        have hnext := ih (tick + env.turnCalls) ((piece ++ tail).drop used)
          (by rw [List.length_drop,List.length_append]; omega)
        rw [List.length_drop,List.length_append] at hle
        rw [if_neg hnone,List.flatten_cons,List.append_cancel_left_eq]
        by_cases hall : piece.length = used
        · have htail : (piece ++ tail).drop used = tail := by rw [← hall,List.drop_left]
          rw [htail] at hnext ⊢
          simp [hrest,hnone,hall,hnext]
        · have hshort : (env.pieces n (tick + env.turnCalls) ((piece ++ tail).drop used)).flatten ≠
              tail := by
            intro h
            rw [h] at hle
            omega
          simp [hrest,hnone,hall,hshort]

theorem progress_le {progress n : Nat} {ps : List Str} (h : .u64 n ∈ progressChunks progress ps) :
    n ≤ progress + ps.flatten.length := by
  induction ps generalizing progress with
  | nil => simp [progressChunks] at h
  | cons q qs ih =>
    rw [List.flatten_cons,List.length_append]
    rcases List.mem_cons.mp h with h | h
    · obtain rfl := Chunk.u64.inj h
      omega
    · have hn := ih h
      omega

theorem eof_not_mem_of_lt {size : Nat} {ps : List Str} (hsize : size < EOF_ind)
    (hps : ps.flatten.length ≤ size) : .u64 EOF_ind ∉ transferChunks size ps := by
  intro h
  rcases List.mem_cons.mp h with h | h
  · rw [← Chunk.u64.inj h] at hsize
    omega
  · have hprogress := progress_le h
    omega

theorem eof_not_mem_transferChunks {tick : Nat} {fs : FileSystem} {input : Path}
    (hsize : env.sizeOf fs input < EOF_ind) :
    .u64 EOF_ind ∉ transferChunks (env.sizeOf fs input)
      (env.written tick (contentAt fs input)) := by
  have hlen : (env.written tick (contentAt fs input)).flatten.length ≤ (contentAt fs input).length :=
    pieces_length_le _ _ _
  have hcontent : (contentAt fs input).length ≤ env.sizeOf fs input := by
    unfold contentAt System.sizeOf
    cases fs.node input with
    | none => simp
    | some n => cases n <;> simp
  exact eof_not_mem_of_lt hsize (hlen.trans hcontent)

theorem sizeOf_lt {env : CopyEnv} {fs : FileSystem} {n : Nat} (hn : 0 < n)
    (h : ∀ p ∈ fs.paths, env.sizeOf fs p < n) (p : Path) : env.sizeOf fs p < n := by
  by_cases hp : p ∈ fs.paths
  · exact h p hp
  · have hnone : fs.node p = none := FileSystem.node_of_not_has fun hh => hp ((fs.mem_paths p).mpr hh)
    simpa [System.sizeOf,hnone] using hn

end RootHelper
