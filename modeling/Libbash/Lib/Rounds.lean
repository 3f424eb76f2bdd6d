import Mathlib.Data.List.TakeDrop
import Mathlib.Order.Lattice
import Mathlib.Order.Nat

/-!
# Rounds

A consumer with `k` places takes the elements of a list in rounds, `k` in each. There is
always one round, also when there is nothing to take or no place to put it.
-/

namespace Lib

variable {X : Type} {k m : Nat} {l l' : List X}

/-- How many rounds `m` elements need. -/
def rounds (k m : Nat) : Nat := if k = 0 then 1 else max 1 ((m + k - 1) / k)

/-- What the rounds take. -/
def portions (k : Nat) (l : List X) : List (List X) :=
  (List.range (rounds k l.length)).map fun r => (l.drop (k * r)).take k

theorem length_portions (k : Nat) (l : List X) : (portions k l).length = rounds k l.length := by
  unfold portions
  rw [List.length_map, List.length_range]

theorem rounds_of_le (hk : 0 < k) (h : m ≤ k) : rounds k m = 1 := by
  have hdiv : (m + k - 1) / k < 2 := Nat.div_lt_of_lt_mul (by omega)
  unfold rounds
  rw [if_neg (Nat.ne_of_gt hk)]
  omega

theorem rounds_of_lt (hk : 0 < k) (h : k < m) : rounds k m = rounds k (m - k) + 1 := by
  have hshift : m + k - 1 = (m - k + k - 1) + k := by omega
  have hpos : 1 ≤ (m - k + k - 1) / k := Nat.div_pos (by omega) hk
  unfold rounds
  rw [if_neg (Nat.ne_of_gt hk), if_neg (Nat.ne_of_gt hk), hshift, Nat.add_div_right _ hk]
  omega

/-- Without places there is one round that takes nothing. -/
theorem portions_zero (l : List X) : portions 0 l = [[]] := by
  unfold portions rounds
  rw [if_pos rfl]
  simp

theorem portions_of_le (hk : 0 < k) (h : l.length ≤ k) : portions k l = [l] := by
  unfold portions
  rw [rounds_of_le hk h]
  simpa using h

theorem portions_of_lt (hk : 0 < k) (h : k < l.length) :
    portions k l = l.take k :: portions k (l.drop k) := by
  unfold portions
  rw [rounds_of_lt hk h, List.range_succ_eq_map, List.map_cons, List.map_map, List.length_drop,
    Nat.mul_zero, List.drop_zero]
  congr 2
  funext r
  rw [Function.comp_apply, List.drop_drop, Nat.mul_succ, Nat.add_comm]

/-- A full round and what is left. -/
theorem portions_append (hk : 0 < k) (hfull : l.length = k) (hl' : l' ≠ []) :
    portions k (l ++ l') = l :: portions k l' := by
  have hpos := List.length_pos_iff.mpr hl'
  rw [portions_of_lt hk (by rw [List.length_append]; omega), List.take_left' hfull,
    List.drop_left' hfull]

/-- Every element is taken once and in its place. -/
theorem flatten_portions (hk : 0 < k) (l : List X) : (portions k l).flatten = l := by
  induction hlen : l.length using Nat.strong_induction_on generalizing l with
  | _ n ih =>
    by_cases h : l.length ≤ k
    · rw [portions_of_le hk h, List.flatten_singleton]
    · have hrest : (l.drop k).length < n := by
        rw [List.length_drop]
        omega
      rw [portions_of_lt hk (Nat.lt_of_not_le h), List.flatten_cons, ih _ hrest _ rfl,
        List.take_append_drop]

end Lib
