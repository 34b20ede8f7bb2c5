import Mathlib.Data.List.Nodup
import Mathlib.Data.List.Perm.Subperm
import RootHelper.FileCopier

/-!
The search for a free name next to a destination: the names it tries are different entries of one
directory, so that it comes to a free one while its counter does not start again.
-/

set_option autoImplicit false

namespace RootHelper
open Posix Control

section Entries

variable {k : Kernel} {fs : FileSystem} {x : Str} {c d : Name} {q : Path}

theorem start_pathConcat (x : Str) (c d : Name) :
    k.start (pathConcat x c) = k.start (pathConcat x d) := by
  have habs : absolute (pathConcat x c) ↔ absolute (pathConcat x d) := by
    unfold absolute
    cases x with
    | nil => simp [pathConcat]
    | cons b x =>
      rcases pathConcat_shape (b :: x) c with ⟨e,_⟩ | e <;>
        rcases pathConcat_shape (b :: x) d with ⟨e',_⟩ | e' <;> simp [e,e']
  simp only [Kernel.start,habs]

/-- An entry of the directory `x` stands at its own name there. -/
theorem glance_pathConcat (hx : NulFree x) (hc : ProperName c)
    (h : k.glance fs (pathConcat x c) = .ok q) :
    ∃ p, k.walk fs Kernel.maxLinks (k.start (pathConcat x c)) (components x) = .ok p ∧
      q = p ++ [c] := by
  have hnul := nulFree_pathConcat hx hc.2.2.1
  have hne : pathConcat x c ≠ [] := by
    unfold pathConcat
    split <;> simp [hc.1]
  rw [Kernel.glance,cstr_of_nulFree hnul,if_neg (not_endsWithSlash_pathConcat x hc),Kernel.spot,
    cstr_of_nulFree hnul,if_neg hne,components_pathConcat x hc,Kernel.spotFrom] at h
  simp only [List.getLast?_append,List.getLast?_singleton,Option.some_or,List.dropLast_concat] at h
  cases hw : k.walk fs Kernel.maxLinks (k.start (pathConcat x c)) (components x) with
  | error e => simp [hw,bind,Except.bind,Except.map] at h
  | ok p =>
    refine ⟨p,rfl,?_⟩
    simp only [hw,bind,Except.bind] at h
    cases hn : fs.node p with
    | none => simp [hn,Except.map] at h
    | some n =>
      cases n with
      | file content m => simp [hn,Except.map] at h
      | link t => simp [hn,Except.map] at h
      | dir m =>
        simp only [hn,if_neg hc.2.2.2.1,if_neg hc.2.2.2.2] at h
        split_ifs at h
        · simp [Except.map] at h
        · simpa [Except.map,Spot.place,eq_comm] using h

end Entries

theorem toNat_digit {n : Nat} {c : Char} (h : c ∈ Nat.toDigits 10 n) :
    (UInt8.ofNat c.toNat).toNat = c.toNat ∧ 48 ≤ c.toNat ∧ c.toNat ≤ 57 := by
  have hdigit := Nat.isDigit_of_mem_toDigits (by decide) (by decide) h
  simp only [Char.isDigit,Bool.and_eq_true,decide_eq_true_eq,UInt32.le_iff_toNat_le] at hdigit
  have hrange : 48 ≤ c.toNat ∧ c.toNat ≤ 57 := hdigit
  refine ⟨?_,hrange⟩
  rw [UInt8.toNat_ofNat',Nat.mod_eq_of_lt (by omega)]

theorem toStr_digit {n : Nat} {b : Byte} (h : b ∈ toStr n) : 48 ≤ b.toNat ∧ b.toNat ≤ 57 := by
  obtain ⟨c,hc,rfl⟩ := List.mem_map.mp h
  obtain ⟨hbyte,hrange⟩ := toNat_digit hc
  rwa [hbyte]

theorem toStr_inj {m n : Nat} (h : toStr m = toStr n) : m = n := by
  have hback : ∀ n, (toStr n).map (fun b => Char.ofNat b.toNat) = Nat.toDigits 10 n := by
    intro n
    rw [toStr,text,List.map_map]
    refine (List.map_congr_left fun c hc => ?_).trans (List.map_id _)
    rw [Function.comp_apply,(toNat_digit hc).1,Char.ofNat_toNat,id]
  have hdigits : Nat.toDigits 10 m = Nat.toDigits 10 n := by rw [← hback,← hback,h]
  rw [← @Nat.ofDigitChars_ten_toDigits m,hdigits,Nat.ofDigitChars_ten_toDigits]

theorem toStr_ne_nil (n : Nat) : toStr n ≠ [] := by
  simp [toStr,text,Nat.toDigits_ne_nil]

theorem properName_numbered {name : Str} (hslash : slash ∉ name) (hnul : NulFree name) (n : Nat) :
    ProperName (name ++ toStr n) := by
  have hlast : ∃ b, (name ++ toStr n).getLast? = some b ∧ 48 ≤ b.toNat ∧ b.toNat ≤ 57 := by
    obtain ⟨b,hb⟩ := Option.isSome_iff_exists.mp (List.getLast?_isSome.mpr (toStr_ne_nil n))
    refine ⟨b,?_,toStr_digit (List.mem_of_getLast? hb)⟩
    rw [List.getLast?_append_of_ne_nil _ (toStr_ne_nil n),hb]
  have hnone : ∀ b : Byte, b.toNat < 48 → b ∉ toStr n := fun b hb hmem => by
    have hdigit := toStr_digit hmem
    omega
  have hdot : ∀ name' : Str, name'.getLast? = some dot → name ++ toStr n ≠ name' := by
    intro name' hname' he
    obtain ⟨b,hb,hlow,_⟩ := hlast
    rw [he,hname'] at hb
    obtain rfl := Option.some.inj hb
    exact absurd hlow (by decide)
  refine ⟨by simp [toStr_ne_nil],?_,?_,hdot dotName rfl,hdot dotdotName rfl⟩
  · rw [List.mem_append]
    exact fun h => h.elim hslash (hnone slash (by decide))
  · rw [List.mem_append]
    exact fun h => h.elim hnul (hnone 0 (by decide))

/-- The paths the search tries, one after the other. -/
def candidate (destI : Str) : Nat → Str
  | 0 => destI
  | n+1 => pathConcat (getParentDir destI) (getFilenameFromFullPath destI ++ toStr n)

section Search

variable {env : CopyEnv} {destI : Str} {d : Disk}

theorem slash_not_mem_filename (s : Str) : slash ∉ getFilenameFromFullPath s := by
  unfold getFilenameFromFullPath
  cases h : lastSlash s with
  | none => exact lastSlash_eq_none.mp h
  | some i =>
    obtain ⟨a,b,rfl,rfl,hb⟩ := lastSlash_eq_some h
    simpa using hb

theorem nulFree_parts (hnul : NulFree destI) :
    NulFree (getParentDir destI) ∧ NulFree (getFilenameFromFullPath destI) := by
  unfold getParentDir getFilenameFromFullPath
  constructor
  · split
    · simp [NulFree]
    · split
      · simp [NulFree]
      · exact fun h => hnul (List.mem_of_mem_take h)
  · split
    · exact hnul
    · exact fun h => hnul (List.mem_of_mem_drop h)

theorem taken_le {k : Kernel} {fs : FileSystem} (hnul : NulFree destI) {n : Nat}
    (htaken : ∀ j < n, efdAt k fs (candidate destI (j+1)) ≠ .none) : n ≤ fs.paths.length := by
  obtain ⟨hparent,hname⟩ := nulFree_parts hnul
  have hproper := fun j => properName_numbered (slash_not_mem_filename destI) hname j
  cases n with
  | zero => exact Nat.zero_le _
  | succ n =>
    have hplace : ∃ p, ∀ j < n+1, fs.has (p ++ [getFilenameFromFullPath destI ++ toStr j]) := by
      obtain ⟨q,hq,_⟩ := has_of_efdAt (htaken 0 (by omega))
      obtain ⟨p,hp,_⟩ := glance_pathConcat hparent (hproper 0) hq
      refine ⟨p,fun j hj => ?_⟩
      obtain ⟨q',hq',hhas⟩ := has_of_efdAt (htaken j hj)
      obtain ⟨p',hp',rfl⟩ := glance_pathConcat hparent (hproper j) hq'
      rw [start_pathConcat _ _ (getFilenameFromFullPath destI ++ toStr 0),hp] at hp'
      obtain rfl := Except.ok.inj hp'
      exact hhas
    obtain ⟨p,hp⟩ := hplace
    have hnodup : ((List.range (n+1)).map fun j =>
        p ++ [getFilenameFromFullPath destI ++ toStr j]).Nodup := by
      refine List.Nodup.map (fun i j hij => ?_) List.nodup_range
      simp only [List.append_cancel_left_eq,List.cons.injEq,and_true] at hij
      exact toStr_inj hij
    have hsub := List.subperm_of_subset hnodup fun q hq => by
      obtain ⟨j,hj,rfl⟩ := List.mem_map.mp hq
      exact (fs.mem_paths _).mpr (hp j (List.mem_range.mp hj))
    simpa using hsub.length_le

/-- The search ends with a name while there are fewer places than numbers. -/
theorem wp_nonExistingDest_ends (hnul : NulFree destI) (hroom : d.fs.paths.length + 1 < 2^32) :
    wp (nonExistingDest env destI) (fun _ _ => True) (fun _ _ => False) d := by
  have search : ∀ n count d₀, Quiet d d₀ → d.fs.paths.length + 2 ≤ n + count →
      (∀ j < count, efdAt env.toKernel d.fs (candidate destI j) ≠ .none) →
      wp (freeName env (getParentDir destI) (getFilenameFromFullPath destI) n count
        (candidate destI count)) (fun _ _ => True) (fun _ _ => False) d₀ := by
    intro n
    induction n with
    | zero =>
      intro count d₀ _ hcount htaken
      have hle := @taken_le destI env.toKernel d.fs hnul (count-1) fun j hj =>
        htaken (j+1) (by omega)
      omega
    | succ n ih =>
      intro count d₀ h₀ hcount htaken
      rw [freeName,wp_bind]
      refine wp_existsIsFileIsDir_ fun d₁ h₁ => ?_
      rw [h₀.fs_eq]
      have hnext : efdAt env.toKernel d.fs (candidate destI count) ≠ .none →
          wp (freeName env (getParentDir destI) (getFilenameFromFullPath destI) n
            ((count+1) % 2^32) (candidate destI (count+1))) (fun _ _ => True) (fun _ _ => False)
            d₁ := by
        intro hcur
        have htaken' : ∀ j < count+1, efdAt env.toKernel d.fs (candidate destI j) ≠ .none := by
          intro j hj
          rcases Nat.lt_succ_iff_lt_or_eq.mp hj with hj | rfl
          · exact htaken j hj
          · exact hcur
        have hle := @taken_le destI env.toKernel d.fs hnul count fun j hj =>
          htaken' (j+1) (by omega)
        rw [Nat.mod_eq_of_lt (by omega)]
        exact ih (count+1) d₁ (trans_of Quiet h₀ h₁) (by omega) htaken'
      cases he : efdAt env.toKernel d.fs (candidate destI count) with
      | none => trivial
      | file => exact hnext (by simp [he])
      | dir => exact hnext (by simp [he])
  simp only [nonExistingDest,wp_bind,wp_get]
  exact search _ 0 d (refl_of Quiet d) (by omega) (by omega)

end Search

end RootHelper
