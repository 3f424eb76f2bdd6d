import Mathlib.Data.List.Nodup
import Mathlib.Tactic.SplitIfs

/-!
# Slices of a list

A slice begins at an offset, which counts from the end of the list when it is
negative, and has a length or goes on to the end. An offset that stands for no
position of the list gives the empty slice.
-/

namespace Lib

/-- The position that an offset stands for in a list of the given length. -/
def position (length : Nat) (offset : Int) : Int :=
  if 0 ≤ offset then offset else length + offset

/-- There is an element at the position of the offset. -/
def InList (length : Nat) (offset : Int) : Prop :=
  0 ≤ position length offset ∧ position length offset < length

instance (length : Nat) (offset : Int) : Decidable (InList length offset) :=
  inferInstanceAs (Decidable (_ ∧ _))

section Slices

variable {α : Type} (xs : List α)

/-- The elements from the position `s` of the offset up to `min (s + n) length`. -/
def slice (offset : Int) (n : Nat) : List α :=
  let s := (position xs.length offset).toNat
  if InList xs.length offset then xs.extract s (min (s + n) xs.length) else []

/-- The elements from the position of the offset on. -/
def sliceFrom (offset : Int) : List α :=
  if InList xs.length offset then xs.extract (position xs.length offset).toNat xs.length else []

variable {xs}

theorem position_nonneg {offset : Int} (h : 0 ≤ offset) (length : Nat) :
    position length offset = offset := by
  unfold position
  rw [if_pos h]

theorem position_neg {offset : Int} (h : offset < 0) (length : Nat) :
    position length offset = length + offset := by
  unfold position
  rw [if_neg (by omega)]

theorem inList_natCast (length k : Nat) : InList length k ↔ k < length := by
  unfold InList
  rw [position_nonneg (by omega)]
  omega

theorem slice_eq_take {offset : Int} (h : InList xs.length offset) (n : Nat) :
    slice xs offset n = (xs.drop (position xs.length offset).toNat).take n := by
  have hs : (position xs.length offset).toNat < xs.length := by
    unfold InList at h
    omega
  show (if InList xs.length offset then _ else _) = _
  rw [if_pos h, List.extract_eq_take_drop]
  generalize (position xs.length offset).toNat = s at hs
  rcases Nat.le_total (s + n) xs.length with hle | hle
  · rw [Nat.min_eq_left hle, Nat.add_sub_cancel_left]
  · rw [Nat.min_eq_right hle]
    rw [List.take_of_length_le (Nat.le_of_eq List.length_drop),
      List.take_of_length_le (by rw [List.length_drop]; omega)]

theorem slice_eq_nil {offset : Int} (h : ¬InList xs.length offset) (n : Nat) :
    slice xs offset n = [] := if_neg h

theorem sliceFrom_eq_drop {offset : Int} (h : InList xs.length offset) :
    sliceFrom xs offset = xs.drop (position xs.length offset).toNat := by
  unfold sliceFrom
  rw [if_pos h, List.extract_eq_take_drop, List.take_of_length_le (Nat.le_of_eq List.length_drop)]

theorem sliceFrom_eq_nil {offset : Int} (h : ¬InList xs.length offset) :
    sliceFrom xs offset = [] := if_neg h

/-- A slice of full length goes on to the end. -/
theorem slice_full (xs : List α) (offset : Int) {n : Nat} (h : xs.length ≤ n) :
    slice xs offset n = sliceFrom xs offset := by
  by_cases hin : InList xs.length offset
  · rw [slice_eq_take hin, sliceFrom_eq_drop hin]
    exact List.take_of_length_le (by rw [List.length_drop]; omega)
  · rw [slice_eq_nil hin, sliceFrom_eq_nil hin]

/-- The first `k` elements and the rest. -/
theorem slice_append_sliceFrom (xs : List α) (k : Nat) : slice xs 0 k ++ sliceFrom xs k = xs := by
  have hfirst : slice xs 0 k = xs.take k := by
    by_cases hin : InList xs.length 0
    · rw [slice_eq_take hin, position_nonneg (Int.le_refl 0)]
      rfl
    · rw [slice_eq_nil hin]
      have hempty : xs.length = 0 := by
        have hzero := (inList_natCast xs.length 0).not.mp hin
        omega
      rw [List.length_eq_zero_iff.mp hempty, List.take_nil]
  have hrest : sliceFrom xs k = xs.drop k := by
    by_cases hin : InList xs.length k
    · rw [sliceFrom_eq_drop hin, position_nonneg (by omega), Int.toNat_natCast]
    · rw [sliceFrom_eq_nil hin]
      exact (List.drop_eq_nil_of_le (by rw [inList_natCast] at hin; omega)).symm
  rw [hfirst, hrest, List.take_append_drop]

/-- The offset `-k` gives the suffix of length `k`. -/
theorem sliceFrom_neg {k : Nat} (hpos : 1 ≤ k) (hle : k ≤ xs.length) :
    sliceFrom xs (-k) = xs.drop (xs.length - k) := by
  have hposition : position xs.length (-k) = (xs.length - k : Nat) := by
    rw [position_neg (by omega)]
    omega
  have hin : InList xs.length (-k) := by
    unfold InList
    rw [hposition]
    omega
  rw [sliceFrom_eq_drop hin, hposition, Int.toNat_natCast]

end Slices

/-! ## Places -/

/-- The position of the element that an offset stands for. -/
def place (length : Nat) (offset : Int) : Option Nat :=
  if InList length offset then some (position length offset).toNat else none

section Places

variable {α β : Type} {xs : List α}

/-- The elements from a place on; none without a place. -/
def fromPlace (xs : List α) : Option Nat → List α
  | none => []
  | some p => xs.drop p

/-- The first `n` elements, or all. -/
def upTo : Option Nat → List α → List α
  | none, xs => xs
  | some n, xs => xs.take n

@[simp] theorem upTo_nil (n : Option Nat) : upTo n ([] : List α) = [] := by
  cases n with
  | none => rfl
  | some n => exact List.take_nil

theorem upTo_cons {n : Option Nat} (hn : n ≠ some 0) (x : α) (xs : List α) :
    upTo n (x :: xs) = x :: upTo (n.map (· - 1)) xs := by
  cases n with
  | none => rfl
  | some n =>
    obtain ⟨n, rfl⟩ : ∃ k, n = k + 1 := Nat.exists_eq_succ_of_ne_zero fun h0 => hn (by rw [h0])
    rfl

theorem map_upTo (f : α → β) (n : Option Nat) (xs : List α) :
    (upTo n xs).map f = upTo n (xs.map f) := by
  cases n with
  | none => rfl
  | some n => exact List.map_take

theorem map_fromPlace (f : α → β) (xs : List α) (p : Option Nat) :
    (fromPlace xs p).map f = fromPlace (xs.map f) p := by
  cases p with
  | none => rfl
  | some p => exact List.map_drop

theorem upTo_subset (n : Option Nat) (xs : List α) : upTo n xs ⊆ xs := by
  cases n with
  | none => exact List.Subset.refl xs
  | some n => exact List.take_subset n xs

theorem fromPlace_subset (xs : List α) (p : Option Nat) : fromPlace xs p ⊆ xs := by
  cases p with
  | none => exact List.nil_subset xs
  | some p => exact List.drop_subset p xs

theorem sliceFrom_eq (xs : List α) (offset : Int) :
    sliceFrom xs offset = fromPlace xs (place xs.length offset) := by
  unfold place
  by_cases h : InList xs.length offset
  · rw [if_pos h, sliceFrom_eq_drop h]
    rfl
  · rw [if_neg h, sliceFrom_eq_nil h]
    rfl

theorem place_natCast (length k : Nat) :
    place length k = if k < length then some k else none := by
  have hposition : position length k = k := position_nonneg (by omega) length
  unfold place
  simp only [inList_natCast, hposition, Int.toNat_natCast]

theorem place_eq_none_iff {length : Nat} {offset : Int} :
    place length offset = none ↔ ¬InList length offset := by
  unfold place
  by_cases h : InList length offset
  · rw [if_pos h]
    simp [h]
  · rw [if_neg h]
    simp [h]

theorem place_eq_some_iff {length : Nat} {offset : Int} {k : Nat} :
    place length offset = some k ↔ k < length ∧ position length offset = k := by
  unfold place
  by_cases h : InList length offset
  · rw [if_pos h, Option.some.injEq]
    unfold InList at h
    omega
  · rw [if_neg h]
    unfold InList at h
    constructor
    · intro hsome
      cases hsome
    · rintro ⟨hlt, hpos⟩
      omega

theorem place_lt {length p : Nat} {offset : Int} (h : place length offset = some p) :
    p < length := by
  unfold place at h
  split_ifs at h with hin
  cases h
  unfold InList at hin
  omega

/-- The element at a place is the first one of a slice that is not empty. -/
theorem mem_upTo_fromPlace {p : Nat} {n : Option Nat} (hp : p < xs.length) (hn : n ≠ some 0) :
    xs[p] ∈ upTo n (fromPlace xs (some p)) := by
  have hdrop : xs.drop p = xs[p] :: xs.drop (p + 1) := List.drop_eq_getElem_cons hp
  rw [fromPlace, hdrop]
  cases n with
  | none => exact List.mem_cons_self
  | some n =>
    obtain ⟨n, rfl⟩ : ∃ k, n = k + 1 := Nat.exists_eq_succ_of_ne_zero fun h0 => hn (by rw [h0])
    exact List.mem_cons_self

theorem not_mem_drop {p q : Nat} (hnodup : xs.Nodup) (hp : p < xs.length) (hpq : p < q) :
    xs[p] ∉ xs.drop q := by
  intro hmem
  obtain ⟨k, hk, heq⟩ := List.mem_iff_getElem.mp hmem
  rw [List.getElem_drop] at heq
  have := hnodup.getElem_inj_iff.mp heq
  omega

/-- An element of the first slice that the second one does not have. -/
theorem exists_only_left {p : Nat} {q : Option Nat} {n : Option Nat} (hnodup : xs.Nodup)
    (hp : p < xs.length) (hn : n ≠ some 0) (hq : ∀ k, q = some k → p < k) :
    ∃ x ∈ upTo n (fromPlace xs (some p)), x ∉ upTo n (fromPlace xs q) := by
  refine ⟨xs[p], mem_upTo_fromPlace hp hn, fun hmem => ?_⟩
  have hfrom := upTo_subset n _ hmem
  cases q with
  | none => cases hfrom
  | some k => exact not_mem_drop hnodup hp (hq k rfl) hfrom

/-- Slices of the same length from different places differ in an element. -/
theorem exists_separating {p q : Option Nat} {n : Option Nat} (hnodup : xs.Nodup)
    (hp : ∀ k, p = some k → k < xs.length) (hq : ∀ k, q = some k → k < xs.length)
    (hn : n ≠ some 0) (hpq : p ≠ q) :
    ∃ x, (x ∈ upTo n (fromPlace xs p) ∧ x ∉ upTo n (fromPlace xs q)) ∨
      (x ∈ upTo n (fromPlace xs q) ∧ x ∉ upTo n (fromPlace xs p)) := by
  cases p with
  | none =>
    cases q with
    | none => exact absurd rfl hpq
    | some k =>
      obtain ⟨x, hx, hx'⟩ := exists_only_left (q := none) hnodup (hq k rfl) hn (by simp)
      exact ⟨x, .inr ⟨hx, hx'⟩⟩
  | some j =>
    cases q with
    | none =>
      obtain ⟨x, hx, hx'⟩ := exists_only_left (q := none) hnodup (hp j rfl) hn (by simp)
      exact ⟨x, .inl ⟨hx, hx'⟩⟩
    | some k =>
      have hne : j ≠ k := fun h => hpq (by rw [h])
      rcases Nat.lt_or_gt_of_ne hne with hlt | hgt
      · obtain ⟨x, hx, hx'⟩ := exists_only_left (q := some k) hnodup (hp j rfl) hn
          (by rintro _ ⟨⟩; exact hlt)
        exact ⟨x, .inl ⟨hx, hx'⟩⟩
      · obtain ⟨x, hx, hx'⟩ := exists_only_left (q := some j) hnodup (hq k rfl) hn
          (by rintro _ ⟨⟩; exact hgt)
        exact ⟨x, .inr ⟨hx, hx'⟩⟩

/-- In an increasing list, the elements from a bound on are those behind the ones
below it. -/
theorem filter_le_eq_drop (key : α → Nat) (bound : Nat)
    (h : xs.Pairwise fun a b => key a < key b) :
    xs.filter (fun x => bound ≤ key x) = xs.drop (xs.countP fun x => key x < bound) := by
  induction xs with
  | nil => rfl
  | cons x xs ih =>
    obtain ⟨hx, hxs⟩ := List.pairwise_cons.mp h
    by_cases hlow : key x < bound
    · rw [List.filter_cons_of_neg (by simpa using hlow),
        List.countP_cons_of_pos (by simpa using hlow), List.drop_succ_cons]
      exact ih hxs
    · have hall : ∀ y ∈ xs, bound ≤ key y := fun y hy => by
        have := hx y hy
        omega
      have hnone : xs.countP (fun x => key x < bound) = 0 :=
        List.countP_eq_zero.mpr fun y hy => by
          have := hall y hy
          simpa using this
      rw [List.filter_cons_of_pos (by simpa using hlow),
        List.countP_cons_of_neg (by simpa using hlow), hnone, List.drop_zero,
        List.filter_eq_self.mpr fun y hy => by simpa using hall y hy]

theorem countP_lt_range (bound size : Nat) :
    (List.range size).countP (fun k => k < bound) = min bound size := by
  induction size with
  | zero => exact (Nat.min_zero bound).symm
  | succ size ih =>
    rw [List.range_succ, List.countP_append, ih, List.countP_singleton]
    by_cases h : size < bound
    · rw [if_pos (by simpa using h)]
      omega
    · rw [if_neg (by simpa using h)]
      omega

end Places

end Lib
