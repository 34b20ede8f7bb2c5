import Mathlib.Data.List.Basic
import Mathlib.Data.List.Range
import Mathlib.Data.Nat.ModEq

/-!
Stretches of a circle of cells: the `n` cells from `start` on, wrapping at `cap`, and what writing
behind such a stretch makes of it.
-/

set_option autoImplicit false

namespace Circular

variable {α : Type} {cap : Nat} {cells : Nat → α} {start n m : Nat}

/-- The `n` cells from `off` on, without wrapping. -/
def slice (cells : Nat → α) (off n : Nat) : List α := (List.range n).map fun i => cells (off + i)

/-- The `n` cells from `start` on, around the circle. -/
def window (cap : Nat) (cells : Nat → α) (start n : Nat) : List α :=
  (List.range n).map fun i => cells ((start + i) % cap)

/-- `bs` written from `off` on, without wrapping. -/
def put (cells : Nat → α) (off : Nat) (bs : List α) : Nat → α := fun j =>
  if h : off ≤ j ∧ j < off + bs.length then bs[j-off] else cells j

@[simp] theorem length_slice (off : Nat) : (slice cells off n).length = n := by simp [slice]

@[simp] theorem length_window : (window cap cells start n).length = n := by simp [window]

/-- Within a turn of the circle the next place is found by at most one subtraction. -/
theorem mod_within {a : Nat} (h : a < 2*cap) : a % cap = if a < cap then a else a - cap := by
  split
  · rename_i hlt
    exact Nat.mod_eq_of_lt hlt
  · rename_i hge
    rw [Nat.mod_eq_sub_mod (by omega)]
    exact Nat.mod_eq_of_lt (by omega)

theorem window_add : window cap cells start (n+m) =
    window cap cells start n ++ window cap cells ((start+n) % cap) m := by
  simp only [window,List.range_add,List.map_append,List.map_map]
  congr 1
  refine List.map_congr_left fun i _ => ?_
  simp only [Function.comp,Nat.mod_add_mod,Nat.add_assoc]

theorem window_take (h : m ≤ n) :
    (window cap cells start n).take m = window cap cells start m := by
  obtain ⟨k,rfl⟩ := Nat.exists_eq_add_of_le h
  rw [window_add,List.take_left' length_window]

theorem window_drop (h : m ≤ n) :
    (window cap cells start n).drop m = window cap cells ((start+m) % cap) (n-m) := by
  obtain ⟨k,rfl⟩ := Nat.exists_eq_add_of_le h
  rw [window_add,List.drop_left' length_window,Nat.add_sub_cancel_left]

theorem window_eq_slice (h : start + n ≤ cap) : window cap cells start n = slice cells start n := by
  refine List.map_congr_left fun i hi => ?_
  have hlt := List.mem_range.mp hi
  rw [Nat.mod_eq_of_lt (by omega)]

theorem window_wrap (hs : start < cap) (h : cap ≤ start + n) (hn : n ≤ cap) :
    window cap cells start n = slice cells start (cap-start) ++ slice cells 0 (start+n-cap) := by
  have hsum : n = (cap - start) + (start + n - cap) := by omega
  have hstart : start + (cap - start) = cap := by omega
  conv_lhs => rw [hsum]
  rw [window_add,window_eq_slice (by omega),hstart,Nat.mod_self,window_eq_slice (by omega)]

/-- `bs` written from `w` on around the circle: in two pieces when it crosses the boundary. -/
def putAround (cap : Nat) (cells : Nat → α) (w : Nat) (bs : List α) : Nat → α :=
  if cap - w < bs.length then put (put cells w (bs.take (cap-w))) 0 (bs.drop (cap-w))
  else put cells w bs

theorem put_in {off j : Nat} {bs : List α} (h : off ≤ j) (h' : j - off < bs.length) :
    put cells off bs j = bs[j-off] := dif_pos ⟨h,by omega⟩

theorem put_out {off j : Nat} {bs : List α} (h : ¬ (off ≤ j ∧ j < off + bs.length)) :
    put cells off bs j = cells j := dif_neg h

theorem putAround_at {w k : Nat} {bs : List α} (hw : w < cap) (hk : k < bs.length)
    (hbs : bs.length ≤ cap) : putAround cap cells w bs ((w + k) % cap) = bs[k] := by
  rw [mod_within (by omega)]
  unfold putAround
  split
  · rename_i hwrap
    split
    · rename_i hlt
      rw [put_out (by rw [List.length_drop]; omega),
        put_in (by omega) (by rw [List.length_take]; omega)]
      simp only [List.getElem_take,Nat.add_sub_cancel_left]
    · rename_i hge
      have hsame : cap - w + (w + k - cap - 0) = k := by omega
      rw [put_in (by omega) (by rw [List.length_drop]; omega)]
      simp only [List.getElem_drop,hsame]
  · rename_i hfits
    have hlt : w + k < cap := by omega
    rw [if_pos hlt,put_in (by omega) (by omega)]
    simp only [Nat.add_sub_cancel_left]

theorem putAround_away {w j : Nat} {bs : List α} (hw : w < cap) (hj : j < cap)
    (h : ∀ k, k < bs.length → (w + k) % cap ≠ j) :
    putAround cap cells w bs j = cells j := by
  have hout : ¬ (w ≤ j ∧ j < w + bs.length) := by
    intro hin
    refine h (j - w) (by omega) ?_
    have he : w + (j - w) = j := by omega
    rw [he,Nat.mod_eq_of_lt hj]
  have hout' : ¬ j + cap < w + bs.length := by
    intro hin
    refine h (j + cap - w) (by omega) ?_
    have he : w + (j + cap - w) = j + cap := by omega
    rw [he,Nat.add_mod_right,Nat.mod_eq_of_lt hj]
  unfold putAround
  split
  · rw [put_out (by rw [List.length_drop]; omega),put_out (by rw [List.length_take]; omega)]
  · rw [put_out hout]

theorem window_putAround {bs : List α} (hs : start < cap) (h : n + bs.length ≤ cap) :
    window cap (putAround cap cells ((start+n) % cap) bs) start (n + bs.length) =
      window cap cells start n ++ bs := by
  have hcap : 0 < cap := by omega
  have hw : (start+n) % cap < cap := Nat.mod_lt _ hcap
  refine List.ext_getElem (by simp) fun i hi hi' => ?_
  rw [length_window] at hi
  have hget : (window cap (putAround cap cells ((start+n) % cap) bs) start (n + bs.length))[i] =
      putAround cap cells ((start+n) % cap) bs ((start+i) % cap) := by simp [window]
  rw [hget]
  by_cases hlt : i < n
  · rw [List.getElem_append_left (by simpa using hlt)]
    simp only [window,List.getElem_map,List.getElem_range]
    refine putAround_away hw (Nat.mod_lt _ hcap) fun k hk he => ?_
    rw [Nat.mod_add_mod] at he
    have hmod := (Nat.ModEq.symm (he : start + n + k ≡ start + i [MOD cap]))
    have hle' : start + i ≤ start + n + k := by omega
    have hdvd := (Nat.modEq_iff_dvd' hle').mp hmod
    have hle := Nat.le_of_dvd (by omega) hdvd
    omega
  · obtain ⟨k,rfl⟩ := Nat.exists_eq_add_of_le (Nat.le_of_not_lt hlt)
    have hk : k < bs.length := by omega
    have hat := @putAround_at α cap cells ((start+n) % cap) k bs hw hk (by omega)
    rw [Nat.mod_add_mod] at hat
    rw [List.getElem_append_right (by simp)]
    simp only [length_window,Nat.add_sub_cancel_left]
    rw [← hat,Nat.add_assoc]

end Circular
