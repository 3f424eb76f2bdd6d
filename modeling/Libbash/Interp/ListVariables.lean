import Libbash.Lib.SortedMap
import Libbash.Interp.Expand

/-!
# Variables that hold a list

An array assignment and the positional parameters put the elements of a list at
consecutive indices. Read in the order of the indices, the variable gives the
list back as long as an index can count it.
-/

namespace Libbash

open Lib

/-- A variable that holds the values of a list at the indices from `k` on. -/
def Variable.ofList (name : String) (k : Nat) (values : List String) : Variable :=
  .new name (.array (insertAll ∅ (indexFrom k values))) false

section OfList

variable {name : String} {k : Nat} {values : List String}

theorem getAllValues_ofList (h : k + values.length ≤ 2 ^ 32) :
    (Variable.ofList name k values).getAllValues = values := by
  show ((Std.ExtTreeMap.map (fun _ s => Value.str s) _).toList.map
    fun p : UInt32 × Value => p.2.toStr) = _
  rw [Std.ExtTreeMap.toList_map, toList_insertAll (increasingKeys_indexFrom h), List.map_map]
  exact map_snd_indexFrom k values

theorem getArrayLength_ofList (h : k + values.length ≤ 2 ^ 32) :
    (Variable.ofList name k values).getArrayLength = values.length := by
  show (Std.ExtTreeMap.map _ _).size = _
  rw [Std.ExtTreeMap.size_map, size_insertAll (increasingKeys_indexFrom h), length_indexFrom]

theorem value_ofList (h : k + values.length ≤ 2 ^ 32) {i : Nat} {value : String}
    (hi : values[i]? = some value) :
    (Variable.ofList name k values).value[UInt32.ofNat (k + i)]? = some (.str value) := by
  have hmem : (UInt32.ofNat (k + i), value) ∈ indexFrom k values := by
    refine List.mem_of_getElem? (i := i) ?_
    rw [getElem?_indexFrom, hi]
    rfl
  have hget := (getElem?_insertAll_iff (increasingKeys_indexFrom h) _ _).mpr hmem
  show (Std.ExtTreeMap.map _ _)[_]? = _
  rw [Std.ExtTreeMap.getElem?_map, hget]
  rfl

theorem getValueString_ofList (h : k + values.length ≤ 2 ^ 32) {i : Nat} {value : String}
    (hi : values[i]? = some value) :
    (Variable.ofList name k values).getValueString (.ofNat (k + i)) = value := by
  unfold Variable.getValueString
  rw [value_ofList h hi]
  rfl

end OfList

/-- There are no more indices than that. -/
theorem length_le_of_nodup {l : List UInt32} (h : l.Nodup) : l.length ≤ 2 ^ 32 := by
  have hmap : (l.map UInt32.toNat).Nodup := h.map fun a b hab => UInt32.toNat_inj.mp hab
  have hsub : l.map UInt32.toNat ⊆ List.range (2 ^ 32) := by
    intro k hk
    obtain ⟨i, -, rfl⟩ := List.mem_map.mp hk
    exact List.mem_range.mpr i.toNat_lt
  have hlen := (List.subperm_of_subset hmap hsub).length_le
  rwa [List.length_map, List.length_range] at hlen

theorem length_getAllValues_le (v : Variable) : v.getAllValues.length ≤ 2 ^ 32 := by
  have hkeys := length_le_of_nodup (Std.ExtTreeMap.nodup_keys (t := v.value))
  rwa [Std.ExtTreeMap.length_keys, ← Std.ExtTreeMap.length_toList,
    ← List.length_map (f := fun p : UInt32 × Value => p.2.toStr)] at hkeys

end Libbash
