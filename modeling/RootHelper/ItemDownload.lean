import RootHelper.DirectoriesAbove
import RootHelper.TreeUpload

/-!
What the receiving party makes of one item: a file with the content that follows it in the stream,
or a directory, and the directories above.
-/

set_option autoImplicit false

namespace RootHelper
open Posix Control

variable {sys : System} {fs : FileSystem}

section Items

variable {at_ : Transfer → Str → Prop} (h : networkDesc.toSource.ReadsSome at_)

include h

theorem parses_fileHeader {path : Str} {size : Nat} (hpath : path.length < 65536)
    (hsize : size < 2^64) :
    Parses at_ read_fileitem_sock_t (fileHeader path size) ⟨0x00,path,size⟩ := by
  have hbytes : fileHeader path size = [0x00] ++ (stringBytes path ++ littleEndian 8 size) := by
    simp [fileHeader,stringBytes,Nat.mod_eq_of_lt hpath]
  rw [hbytes]
  refine (parses_u8 h 0x00).bind ?_
  rw [if_neg (by decide)]
  refine (parses_string h hpath).bind ?_
  rw [if_pos rfl]
  exact (parses_u64 h hsize).last fun size => (⟨0x00,path,size⟩ : fileitem_sock_t)

theorem parses_dirItem {path : Str} (hpath : path.length < 65536) :
    Parses at_ read_fileitem_sock_t (dirItem path) ⟨0x01,path,0⟩ := by
  have hbytes : dirItem path = [0x01] ++ stringBytes path := by
    simp [dirItem,stringBytes,Nat.mod_eq_of_lt hpath]
  rw [hbytes]
  refine (parses_u8 h 0x01).bind ?_
  rw [if_neg (by decide)]
  have hfile : Parses at_ networkDesc.readStringWithLen (stringBytes path) path :=
    parses_string h hpath
  exact hfile.last fun file => (⟨0x01,file,0⟩ : fileitem_sock_t)

theorem parses_endOfList : Parses at_ read_fileitem_sock_t [0xFF] ⟨0xFF,[],0⟩ := by
  rw [← List.append_nil [0xFF]]
  refine (parses_u8 h 0xFF).bind ?_
  rw [if_pos rfl]
  exact parses_pure _

end Items

/-- `inp` is what still comes over the network; the open file stands at `f`, and the local
connection stays open. -/
structure Listening (f : Disk × Nat) (w : Transfer) (inp : Str) : Prop where
  file : (w.disk,w.offset) = f
  network : ∃ out, Hears out w.rcl inp
  client : ∃ inp bs, Tells inp w.cl bs

section Reads

variable {f : Disk × Nat}

theorem network_reads : networkDesc.toSource.Reads (Listening f) := by
  intro bs w rest h
  obtain ⟨out,hrcl⟩ := h.network
  change wp (Transfer.rclPart.run (connDesc.readAllOrExit bs.length)) _ _ w
  rw [wp_run]
  refine wp_mono (conn_reads out bs w.rcl rest hrcl) (fun _ k hk => ?_) fun _ _ h => h
  exact ⟨hk.1,h.file,⟨out,hk.2⟩,h.client⟩

theorem parses_tell (cl : Bool) (c : Chunk) : Parses (Listening f) (tell cl c) [] () := by
  intro w rest h
  unfold tell
  cases cl with
  | false => exact ⟨rfl,h⟩
  | true =>
    obtain ⟨inp,bs,hcl⟩ := h.client
    change wp (Transfer.clPart.run (connDesc.writeAllOrExit c)) _ _ w
    rw [wp_run]
    refine wp_mono (conn_writes inp c w.cl bs hcl) (fun _ k hk => ?_) fun _ _ h => h
    exact ⟨rfl,h.file,h.network,inp,_,hk⟩

end Reads

/-- The open file at `c` in `p` holds `written` and is written on at its end; elsewhere all is as
in `fs`. -/
structure Filling (fs : FileSystem) (p : Path) (c : Name) (mode : Nat) (f : Disk × Nat)
    (written : Str) : Prop where
  node : f.1.fs.node (p ++ [c]) = some (.file written mode)
  offset : f.2 = written.length
  others : ∀ r, r ≠ p ++ [c] → f.1.fs.node r = fs.node r

section Filling

variable {p : Path} {c : Name} {mode : Nat}

theorem outputFile_takes (hfair : sys.Fair) :
    (outputFile sys (p,c)).Takes (Filling fs p c mode) := by
  intro buf f written hbuf h
  have hmoves := hfair.moves f.1.tick
  have hpiece : buf.take (sys.transfer f.1.tick).toNat ≠ [] := by
    rw [← List.length_pos_iff_ne_nil] at hbuf ⊢
    rw [List.length_take]
    omega
  let k := (buf.take (sys.transfer f.1.tick).toNat).length
  have htake : buf.take (sys.transfer f.1.tick).toNat = buf.take k := by
    simp [k,List.take_eq_take_min]
  have hwrite : wp ((outputFile sys (p,c)).write buf)
      (fun r t => r = (k : Int) ∧ Filling fs p c mode t (written ++ buf.take k))
      (fun _ _ => False) f := by
    simp only [outputFile,wp_bind,wp_get,wp_run,System.write,Lens.fst_get,Lens.fst_set]
    rw [System.wp_perform_granted (hfair.grants _)]
    have hpar := f.1.fs.parent p c (by rw [h.node]; rfl)
    have hcan : f.1.fs.CanPut p c (.file (written ++ buf.take k) mode) :=
      ⟨hpar.1,hpar.2,fun hdir => by simp [FileSystem.isDir,h.node,Node.isDir] at hdir⟩
    rcases @Kernel.writeEffect_eq f.1.fs (sys.transfer f.1.tick) p c f.2 buf written mode h.node
      with ⟨hnothing,_⟩ | ⟨_,heffect⟩
    · exact absurd hnothing hpiece
    · rw [heffect,h.offset,Kernel.overlay_at_end,htake]
      simp only [System.settled,wp_bind,wp_modify,wp_pure]
      have hnode := Change.node_put hcan
      have hlen : (buf.take k).length = k := by rw [← htake]
      refine ⟨by rw [hlen],?_,?_,fun r hr => ?_⟩
      · exact (hnode _).trans (if_pos rfl)
      · exact List.length_append.symm
      · exact ((hnode r).trans (if_neg hr)).trans (h.others r hr)
  obtain ⟨r,t,hr,rfl,ht⟩ := ok_of_wp hwrite
  exact ⟨k,t,List.length_pos_of_ne_nil hpiece,by simp [k],hr,ht⟩

variable {cl : Bool} {l : List Nat} {bs written rest : Str} {w : Transfer} {f : Disk × Nat}

theorem wp_downloadChunk {n cur : Nat} {Q : Unit → Transfer → Prop} {E : Stop → Transfer → Prop}
    (hfair : sys.Fair) (hn : 0 < n) (hbs : bs.length = n) (hf : Filling fs p c mode f written)
    (h : Listening f w (bs ++ rest)) (hnext : ∀ w' f', Filling fs p c mode f' (written ++ bs) →
      Listening f' w' rest → wp (downloadChunks sys cl (p,c) l (cur+n)) Q E w') :
    wp (downloadChunks sys cl (p,c) (n :: l) cur) Q E w := by
  have hsome : bs ≠ [] := by
    rw [← List.length_pos_iff_ne_nil]
    omega
  rw [downloadChunks]
  refine (network_reads.bytes hbs).before h fun w₁ h₁ => ?_
  have hfile : Transfer.filePart.get w₁ = f := h₁.file
  rw [wp_bind,wp_run,hfile]
  refine wp_mono ((outputFile_takes hfair).writes hsome f written hf) (fun _ f₂ hf₂ => ?_)
    fun _ _ h => h.elim
  have h₂ : Listening f₂ (Transfer.filePart.set w₁ f₂) rest := ⟨rfl,h₁.network,h₁.client⟩
  exact (parses_tell cl _).before h₂ fun w₃ h₃ => hnext w₃ f₂ hf₂ h₃

theorem wp_downloadChunks (hfair : sys.Fair) (hl : ∀ n ∈ l, 0 < n) (hsum : l.sum = bs.length)
    {cur : Nat} (hf : Filling fs p c mode f written) (h : Listening f w (bs ++ rest)) :
    wp (downloadChunks sys cl (p,c) l cur) (fun _ w' => ∃ f', Filling fs p c mode f' (written ++ bs) ∧
      Listening f' w' rest) (fun _ _ => False) w := by
  induction l generalizing bs written w f cur with
  | nil =>
    obtain rfl : bs = [] := List.length_eq_zero_iff.mp hsum.symm
    exact ⟨f,by rwa [List.append_nil],h⟩
  | cons n l ih =>
    rw [List.sum_cons] at hsum
    have hlen : (bs.take n).length = n := by
      rw [List.length_take]
      omega
    rw [← List.take_append_drop n bs,List.append_assoc] at h
    refine wp_downloadChunk hfair (hl n List.mem_cons_self) hlen hf h fun w₁ f₁ hf₁ h₁ => ?_
    have hrest := @ih _ _ _ _ (fun m hm => hl m (List.mem_cons_of_mem _ hm))
      (by rw [List.length_drop]; omega) (cur + n) hf₁ h₁
    rwa [List.append_assoc,List.take_append_drop] at hrest

end Filling

/-- `fs'` has what `fs` has and, at `q`, a file with this content or else a directory; anything more
is above `q`. -/
structure Gets (fs fs' : FileSystem) (q : Path) (content : Option Str) : Prop where
  le : fs.Le fs'
  new : ∀ r, fs'.has r → fs.has r ∨ r <+: q
  file : ∀ bytes, content = some bytes → fs'.fileAt q = some bytes
  dir : content = none → fs'.isDir q

/-- The path `y` goes along a way to the free place `q`. -/
structure LeadsTo (k : Kernel) (fs : FileSystem) (y : Str) (q : Path) : Prop where
  absolute : absolute y
  nulFree : NulFree y
  way : ∃ cs b rel c, components y = cs ++ (rel ++ [c]) ∧ cs ≠ [] ∧ Way k fs cs b rel ∧
    ProperName c ∧ q = b ++ (rel ++ [c])
  free : ¬ fs.has q

section OneItem

variable {cl : Bool} {path content rest : Str} {q : Path} {w : Transfer} {f : Disk × Nat}

theorem wp_downloadFile (hfair : sys.Fair) (hperm : ∀ p c m, sys.permits p c m = true)
    (hlead : LeadsTo sys.toKernel fs path q) (hend : ¬ endsWithSlash path) (hf : f.1.fs = fs)
    (h : Listening f w (content ++ rest)) :
    wp (downloadFile sys cl path content.length) (fun _ w' => ∃ f', Listening f' w' rest ∧
      Gets fs f'.1.fs q (some content)) (fun _ _ => False) w := by
  obtain ⟨habs,hnul,⟨cs,b,rel,c,hcomp,hcs,hway,hc,rfl⟩,hfree⟩ := hlead
  -- the name at the end has the parent before it
  obtain ⟨x,d,hxd,hd,hxabs,hsplit⟩ := split_at_lastSlash habs
  have hdne : d ≠ [] := by
    rintro rfl
    exact hend (by simp [hxd,endsWithSlash])
  rw [if_neg hdne,hcomp,← List.append_assoc] at hsplit
  obtain ⟨hx,hcd⟩ := List.append_inj' hsplit rfl
  obtain rfl : c = d := by simpa using hcd
  have hxne : x ≠ [] := by
    rintro rfl
    simp [hcs] at hx
  have hxnul : NulFree x := fun hmem => hnul (by simp [hxd,hmem])
  have hparent : getParentDir path = x := by rw [hxd,getParentDir_append hd]
  have hdisk : w.disk.fs = fs := by
    rw [← hf,← h.file]
  rw [downloadFile]
  simp only [hparent]
  rw [wp_bind,Transfer.withDisk,wp_run]
  change wp (mkpathCopyPermissionsFromNearestAncestor sys x true) _ _ w.disk
  refine wp_mkpathCopyPermissions hfair.grants hperm (hxabs hxne) hxnul (by rwa [hdisk]) hcs
    hx.symm fun d₁ hext hdir => ?_
  rw [hdisk] at hext
  rw [if_neg (Int.lt_irrefl _),wp_bind,Transfer.withDisk,wp_run]
  -- the file itself
  have hway₁ := hext.way hway
  have hspot := hway₁.spot hperm habs hnul (by rw [hcomp,List.append_assoc]) hc
    (FileSystem.has_of_isDir hdir)
  have hfree₁ : ¬ d₁.fs.has (b ++ rel ++ [c]) := by
    intro hhas
    rcases hext.new _ hhas with hold | ⟨hpre,_⟩
    · exact hfree (by rwa [List.append_assoc] at hold)
    · have hlen := hpre.length_le
      simp only [List.length_append,List.length_singleton] at hlen
      omega
  have heffect := Kernel.makeEffect_free (n := .file [] (sys.masked 0o644)) hspot hfree₁
    (by rwa [cstr_of_nulFree hnul])
  change wp (sys.openExcl path 0o644) _ _ d₁
  rw [System.openExcl,System.wp_perform_granted (hfair.grants _),heffect]
  simp only [System.settled]
  rw [wp_bind,Transfer.rewind,wp_modify]
  have hnode := Change.node_put (n := .file [] (sys.masked 0o644))
    (FileSystem.canPut_free ⟨hdir,hc⟩ hfree₁)
  let d₂ := d₁.done ⟨.openExcl path 0o644,some (.put (b ++ rel) c (.file [] (sys.masked 0o644)))⟩
  have hfill : Filling d₁.fs (b ++ rel) c (sys.masked 0o644) (d₂,0) [] :=
    ⟨(hnode _).trans (if_pos rfl),rfl,fun r hr => (hnode r).trans (if_neg hr)⟩
  have h₂ : Listening (d₂,0) { w with disk := d₂, offset := 0 } (content ++ rest) :=
    ⟨rfl,h.network,h.client⟩
  refine (parses_tell cl _).before h₂ fun w₃ h₃ => ?_
  rw [wp_bind]
  refine wp_mono (wp_downloadChunks hfair (fun n hn => pos_of_mem_chunks (by decide) hn)
    (sum_chunks _) hfill h₃) (fun _ w₄ h₄ => ?_) fun _ _ h => h
  obtain ⟨f₄,hfill₄,h₄⟩ := h₄
  refine wp_mono (parses_tell cl _ w₄ rest h₄) (fun _ w₅ h₅ => ?_) fun _ _ h => h
  refine ⟨f₄,h₅.2,?_⟩
  rw [List.nil_append] at hfill₄
  rw [← List.append_assoc]
  refine ⟨fun r n hr => ?_,fun r hr => ?_,fun bytes hbytes => ?_,fun hno => by simp at hno⟩
  · have hold := hext.le r n hr
    have hne : r ≠ b ++ rel ++ [c] := fun he => hfree₁ (he ▸ FileSystem.has_iff.mpr ⟨n,hold⟩)
    rwa [hfill₄.others r hne]
  · by_cases he : r = b ++ rel ++ [c]
    · exact .inr (he ▸ List.prefix_rfl)
    · obtain ⟨n,hn⟩ := FileSystem.has_iff.mp hr
      rw [hfill₄.others r he] at hn
      rcases hext.new r (FileSystem.has_iff.mpr ⟨n,hn⟩) with hold | ⟨hpre,_⟩
      · exact .inl hold
      · exact .inr (hpre.trans (List.prefix_append _ _))
  · obtain rfl := Option.some.inj hbytes
    rw [FileSystem.fileAt,hfill₄.node]

theorem wp_downloadDir (hfair : sys.Fair) (hperm : ∀ p c m, sys.permits p c m = true)
    (hlead : LeadsTo sys.toKernel fs path q) (hf : f.1.fs = fs) (h : Listening f w rest) :
    wp (Transfer.withDisk (mkpathCopyPermissionsFromNearestAncestor sys path true)) (fun _ w' =>
      ∃ f', Listening f' w' rest ∧ Gets fs f'.1.fs q none) (fun _ _ => False) w := by
  obtain ⟨habs,hnul,⟨cs,b,rel,c,hcomp,hcs,hway,hc,rfl⟩,hfree⟩ := hlead
  have hdisk : w.disk.fs = fs := by
    rw [← hf,← h.file]
  have hway₁ : Way sys.toKernel fs cs b (rel ++ [c]) := by
    refine ⟨hway.base,hway.isDir,fun d hd => ?_,fun t ht hhas => ?_⟩
    · rcases List.mem_append.mp hd with hd | hd
      · exact hway.proper d hd
      · rwa [List.mem_singleton.mp hd]
    · rcases List.prefix_concat_iff.mp ht with rfl | ht
      · exact absurd hhas hfree
      · exact hway.dirs t ht hhas
  rw [Transfer.withDisk,wp_run]
  change wp (mkpathCopyPermissionsFromNearestAncestor sys path true) _ _ w.disk
  refine wp_mkpathCopyPermissions hfair.grants hperm habs hnul (by rwa [hdisk]) hcs hcomp
    fun d₁ hext hdir => ?_
  rw [hdisk] at hext
  refine ⟨(d₁,w.offset),⟨rfl,h.network,h.client⟩,hext.le,fun r hr => ?_,fun _ hno => ?_,fun _ => hdir⟩
  · exact (hext.new r hr).imp_right fun hnew => hnew.1
  · simp at hno

end OneItem

end RootHelper
