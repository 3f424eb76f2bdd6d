import Libbash.Lib.SortedMap
import Mathlib.Data.List.Nodup

/-!
# Maps with the keys from 1 to n

A list that is kept in a map from indices is dense when its keys are exactly the
numbers from 1 to its size (`KeysUpTo`). Overwriting an element, removing the
last one and removing what is not there keep it dense.
-/

namespace Lib

open Std

variable {V : Type} {m : ExtTreeMap UInt32 V} {n : Nat}

/-- The keys are exactly the numbers from 1 to `n`. -/
def KeysUpTo (m : ExtTreeMap UInt32 V) (n : Nat) : Prop :=
  ∀ k : UInt32, k ∈ m ↔ 1 ≤ k.toNat ∧ k.toNat ≤ n

theorem keysUpTo_empty : KeysUpTo (∅ : ExtTreeMap UInt32 V) 0 := by
  intro k
  constructor
  · intro h
    exact absurd h ExtTreeMap.not_mem_empty
  · intro h
    omega

/-- There are as many keys as their range says. -/
theorem KeysUpTo.size (h : KeysUpTo m n) (hn : n < 2 ^ 32) : m.size = n := by
  have hnodup : (m.keys.map UInt32.toNat).Nodup :=
    (ExtTreeMap.nodup_keys (t := m)).map fun a b hab => UInt32.toNat_inj.mp hab
  have hmem : ∀ j, j ∈ m.keys.map UInt32.toNat ↔ j ∈ List.range' 1 n := by
    intro j
    rw [List.mem_map, List.mem_range'_1]
    constructor
    · rintro ⟨k, hk, rfl⟩
      have := (h k).mp (ExtTreeMap.mem_keys.mp hk)
      omega
    · intro hj
      have hlt : j < 2 ^ 32 := by omega
      have hnat : (UInt32.ofNat j).toNat = j := UInt32.toNat_ofNat_of_lt' hlt
      refine ⟨UInt32.ofNat j, ExtTreeMap.mem_keys.mpr ((h _).mpr ?_), hnat⟩
      omega
  have hperm := (List.perm_ext_iff_of_nodup hnodup List.nodup_range').mpr hmem
  have hlen := hperm.length_eq
  rwa [List.length_map, ExtTreeMap.length_keys, List.length_range'] at hlen

theorem KeysUpTo.insert {k : UInt32} (h : KeysUpTo m n) (v : V)
    (hk : 1 ≤ k.toNat ∧ k.toNat ≤ n) : KeysUpTo (m.insert k v) n := by
  intro k'
  rw [ExtTreeMap.mem_insert, LawfulEqCmp.compare_eq_iff_eq, h k']
  constructor
  · rintro (rfl | hmem)
    · exact hk
    · exact hmem
  · exact .inr

/-- Removing what is no key changes nothing. -/
theorem KeysUpTo.erase_of_not {k : UInt32} (h : KeysUpTo m n)
    (hk : ¬(1 ≤ k.toNat ∧ k.toNat ≤ n)) : KeysUpTo (m.erase k) n := by
  intro k'
  rw [ExtTreeMap.mem_erase, ne_eq, LawfulEqCmp.compare_eq_iff_eq, h k']
  constructor
  · exact And.right
  · intro hmem
    refine ⟨?_, hmem⟩
    rintro rfl
    exact hk hmem

/-- Removing the last element leaves the others. -/
theorem KeysUpTo.erase_last {k : UInt32} (h : KeysUpTo m n) (hk : k.toNat = n) :
    KeysUpTo (m.erase k) (n - 1) := by
  intro k'
  rw [ExtTreeMap.mem_erase, ne_eq, LawfulEqCmp.compare_eq_iff_eq, h k', ← UInt32.toNat_inj]
  omega

/-- Overwriting elements one after the other. -/
theorem KeysUpTo.foldl_insert {l : List Nat} (h : KeysUpTo m n) (key : Nat → UInt32)
    (value : ExtTreeMap UInt32 V → Nat → V)
    (hl : ∀ i ∈ l, 1 ≤ (key i).toNat ∧ (key i).toNat ≤ n) :
    KeysUpTo (l.foldl (fun m i => m.insert (key i) (value m i)) m) n := by
  induction l generalizing m with
  | nil => exact h
  | cons i l ih =>
    have hi := h.insert (value m i) (hl i List.mem_cons_self)
    exact ih hi fun j hj => hl j (List.mem_cons_of_mem i hj)

theorem mem_foldl_erase {l : List Nat} (k : UInt32) :
    k ∈ l.foldl (fun m i => m.erase (UInt32.ofNat i)) m ↔ k ∈ m ∧ ∀ i ∈ l, UInt32.ofNat i ≠ k := by
  induction l generalizing m with
  | nil => simp
  | cons i l ih =>
    rw [List.foldl_cons, ih, ExtTreeMap.mem_erase, ne_eq, LawfulEqCmp.compare_eq_iff_eq,
      List.forall_mem_cons]
    tauto

/-- Removing the elements from some index on. -/
theorem KeysUpTo.foldl_erase (h : KeysUpTo m n) (hn : n < 2 ^ 32) {a : Nat} (ha : a ≤ n) :
    KeysUpTo ((List.range' (a + 1) (n - a)).foldl (fun m i => m.erase (UInt32.ofNat i)) m) a := by
  intro k
  rw [mem_foldl_erase, h k]
  constructor
  · rintro ⟨hk, hnot⟩
    refine ⟨hk.1, ?_⟩
    by_contra hlt
    have hmem : k.toNat ∈ List.range' (a + 1) (n - a) := by
      rw [List.mem_range'_1]
      omega
    exact hnot k.toNat hmem (UInt32.ofNat_toNat)
  · intro hk
    refine ⟨by omega, fun i hi heq => ?_⟩
    rw [List.mem_range'_1] at hi
    have hnat : (UInt32.ofNat i).toNat = i := UInt32.toNat_ofNat_of_lt' (show i < 2 ^ 32 by omega)
    rw [heq] at hnat
    omega

/-- A list at the indices from 1 on. -/
theorem keysUpTo_insertAll {l : List V} (h : l.length < 2 ^ 32) :
    KeysUpTo (insertAll (∅ : ExtTreeMap UInt32 V) (indexFrom 1 l)) l.length := by
  have hkeys : IncreasingKeys compare (indexFrom 1 l) := increasingKeys_indexFrom (by omega)
  intro k
  rw [ExtTreeMap.mem_iff_isSome_getElem?, Option.isSome_iff_exists]
  constructor
  · rintro ⟨v, hv⟩
    obtain ⟨i, hi⟩ := List.mem_iff_getElem?.mp ((getElem?_insertAll_iff hkeys k v).mp hv)
    rw [getElem?_indexFrom] at hi
    obtain ⟨x, hx, heq⟩ := Option.map_eq_some_iff.mp hi
    have hlt := (List.getElem?_eq_some_iff.mp hx).1
    have hk : k = UInt32.ofNat (1 + i) := (congrArg Prod.fst heq).symm
    have hnat : k.toNat = 1 + i := by
      rw [hk]
      exact UInt32.toNat_ofNat_of_lt' (show 1 + i < 2 ^ 32 by omega)
    omega
  · intro hk
    obtain ⟨i, hi⟩ : ∃ i, k.toNat = 1 + i := ⟨k.toNat - 1, by omega⟩
    have hlt : i < l.length := by omega
    refine ⟨l[i], (getElem?_insertAll_iff hkeys k l[i]).mpr ?_⟩
    refine List.mem_of_getElem? (i := i) ?_
    rw [getElem?_indexFrom, List.getElem?_eq_getElem hlt, ← hi, UInt32.ofNat_toNat]
    rfl

/-! ## The elements of a dense map -/

/-- The map has the elements of a list at the indices from 1 on, and nothing else. -/
structure HoldsList (m : ExtTreeMap UInt32 V) (l : List V) : Prop where
  fits : l.length < 2 ^ 32
  zero : m[(0 : UInt32)]? = none
  get : ∀ k : UInt32, 1 ≤ k.toNat → m[k]? = l[k.toNat - 1]?

namespace HoldsList

variable {l : List V}

theorem keysUpTo (h : HoldsList m l) : KeysUpTo m l.length := by
  intro k
  rw [ExtTreeMap.mem_iff_isSome_getElem?]
  by_cases hk : 1 ≤ k.toNat
  · have hiff : l[k.toNat - 1]?.isSome = true ↔ k.toNat - 1 < l.length := by simp
    rw [h.get k hk, hiff]
    omega
  · obtain rfl : k = 0 := UInt32.toNat_inj.mp (by rw [UInt32.toNat_zero]; omega)
    rw [h.zero]
    simp

theorem size (h : HoldsList m l) : m.size = l.length := h.keysUpTo.size h.fits

/-- Only one map has the elements of a list. -/
theorem unique {m' : ExtTreeMap UInt32 V} (h : HoldsList m l) (h' : HoldsList m' l) : m = m' := by
  apply ExtTreeMap.ext_getElem?
  intro k
  by_cases hk : 1 ≤ k.toNat
  · rw [h.get k hk, h'.get k hk]
  · obtain rfl : k = 0 := UInt32.toNat_inj.mp (by rw [UInt32.toNat_zero]; omega)
    rw [h.zero, h'.zero]

/-- A list that is put at the indices from 1 on. -/
theorem insertAll (h : l.length < 2 ^ 32) :
    HoldsList (Lib.insertAll (∅ : ExtTreeMap UInt32 V) (indexFrom 1 l)) l where
  fits := h
  zero := by
    rw [ExtTreeMap.getElem?_eq_none]
    rw [keysUpTo_insertAll h 0]
    intro hk
    exact absurd hk.1 (by decide)
  get k hk := by
    cases hx : l[k.toNat - 1]? with
    | none =>
      rw [ExtTreeMap.getElem?_eq_none]
      rw [keysUpTo_insertAll h k]
      have := List.getElem?_eq_none_iff.mp hx
      omega
    | some x =>
      refine (getElem?_insertAll_iff (increasingKeys_indexFrom (by omega)) k x).mpr ?_
      refine List.mem_of_getElem? (i := k.toNat - 1) ?_
      have hindex : 1 + (k.toNat - 1) = k.toNat := by omega
      rw [getElem?_indexFrom, hx, hindex, Option.map_some, UInt32.ofNat_toNat]

theorem map {W : Type} (h : HoldsList m l) (f : V → W) :
    HoldsList (m.map fun _ v => f v) (l.map f) where
  fits := by
    rw [List.length_map]
    exact h.fits
  zero := by
    rw [ExtTreeMap.getElem?_map, h.zero]
    rfl
  get k hk := by
    rw [ExtTreeMap.getElem?_map, h.get k hk, List.getElem?_map]

theorem empty : HoldsList (∅ : ExtTreeMap UInt32 V) [] where
  fits := by simp
  zero := ExtTreeMap.getElem?_empty
  get k _ := ExtTreeMap.getElem?_empty

end HoldsList

section Down

variable {l : List V} {a : Nat}

/-- Copy the elements behind the first `a` down by `a`, one after the other. -/
def copyDown (a : Nat) (fallback : V) (is : List Nat) (m : ExtTreeMap UInt32 V) :
    ExtTreeMap UInt32 V :=
  is.foldl (fun m i => m.insert (.ofNat (i - a)) (m[UInt32.ofNat i]?.getD fallback)) m

theorem toNat_ofNat {i : Nat} (h : i < 2 ^ 32) : (UInt32.ofNat i).toNat = i :=
  UInt32.toNat_ofNat_of_lt' h

/-- After `j` passes the first `j` indices have their new elements, and the others
the old ones: what a pass reads has not been written yet. -/
theorem getElem?_copyDown (h : HoldsList m l) (fallback : V) {j : Nat} (hj : a + j ≤ l.length)
    (k : UInt32) :
    (copyDown a fallback (List.range' (a + 1) j) m)[k]? =
      if 1 ≤ k.toNat ∧ k.toNat ≤ j then l[a + k.toNat - 1]? else m[k]? := by
  have hfits := h.fits
  induction j generalizing k with
  | zero =>
    rw [if_neg (by omega)]
    rfl
  | succ j ih =>
    have hread : (copyDown a fallback (List.range' (a + 1) j) m)[UInt32.ofNat (a + 1 + j)]? =
        l[a + j]? := by
      have hnat : (UInt32.ofNat (a + 1 + j)).toNat = a + 1 + j := toNat_ofNat (by omega)
      rw [ih (by omega), if_neg (by omega), h.get _ (by omega), hnat]
      congr 1
      omega
    have hkey : (UInt32.ofNat (a + 1 + j - a)).toNat = j + 1 := by
      rw [toNat_ofNat (by omega)]
      omega
    have hlt : a + j < l.length := by omega
    unfold copyDown at hread ⊢
    rw [List.range'_1_concat, List.foldl_concat, ExtTreeMap.getElem?_insert]
    simp only [LawfulEqCmp.compare_eq_iff_eq]
    split_ifs with heq hin hin
    · subst heq
      rw [hread, List.getElem?_eq_getElem hlt, Option.getD_some, hkey,
        List.getElem?_eq_getElem (by omega)]
      rfl
    · subst heq
      exact absurd ⟨by omega, by omega⟩ hin
    · rw [← copyDown, ih (by omega), if_pos]
      have hne : k.toNat ≠ j + 1 := fun hk => heq (UInt32.toNat_inj.mp (hkey.trans hk.symm))
      omega
    · rw [← copyDown, ih (by omega), if_neg (by omega)]

theorem getElem?_foldl_erase (l : List Nat) (m : ExtTreeMap UInt32 V) (k : UInt32) :
    (l.foldl (fun m i => m.erase (UInt32.ofNat i)) m)[k]? =
      if ∀ i ∈ l, UInt32.ofNat i ≠ k then m[k]? else none := by
  induction l generalizing m with
  | nil => simp
  | cons i l ih =>
    rw [List.foldl_cons, ih, ExtTreeMap.getElem?_erase]
    simp only [LawfulEqCmp.compare_eq_iff_eq, List.forall_mem_cons]
    split_ifs with h1 h2 h3 <;> first | rfl | tauto

/-- Copying down and erasing the tail leaves the list without its first elements. -/
theorem HoldsList.drop (h : HoldsList m l) (fallback : V) (ha : a ≤ l.length) :
    HoldsList ((List.range' (l.length - a + 1) a).foldl (fun m i => m.erase (UInt32.ofNat i))
      (copyDown a fallback (List.range' (a + 1) (l.length - a)) m)) (l.drop a) where
  fits := by
    have := h.fits
    rw [List.length_drop]
    omega
  zero := by
    rw [getElem?_foldl_erase, getElem?_copyDown h fallback (by omega), h.zero]
    simp
  get k hk := by
    have hfits := h.fits
    rw [getElem?_foldl_erase, getElem?_copyDown h fallback (by omega), List.getElem?_drop]
    have hindex : a + (k.toNat - 1) = a + k.toNat - 1 := by omega
    by_cases hin : k.toNat ≤ l.length - a
    · have hkept : ∀ i ∈ List.range' (l.length - a + 1) a, UInt32.ofNat i ≠ k := by
        intro i hi heq
        rw [List.mem_range'_1] at hi
        have hnat : k.toNat = i := by
          rw [← heq]
          exact toNat_ofNat (by omega)
        omega
      rw [if_pos hkept, if_pos ⟨hk, hin⟩, hindex]
    · have hnone : l[a + (k.toNat - 1)]? = none := List.getElem?_eq_none (by omega)
      rw [hnone]
      by_cases hle : k.toNat ≤ l.length
      · have hmem : k.toNat ∈ List.range' (l.length - a + 1) a := by
          rw [List.mem_range'_1]
          omega
        rw [if_neg fun hall => hall k.toNat hmem UInt32.ofNat_toNat]
      · have hold : m[k]? = none := by
          rw [h.get k hk]
          exact List.getElem?_eq_none (by omega)
        have hnot : ¬(1 ≤ k.toNat ∧ k.toNat ≤ l.length - a) := fun hk => hin hk.2
        rw [if_neg hnot, hold, ite_self]

end Down

end Lib
