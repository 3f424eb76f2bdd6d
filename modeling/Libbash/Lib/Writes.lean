import Mathlib.Data.Finset.Card
import Mathlib.Data.Finset.Image
import Mathlib.Logic.Function.Basic
import Libbash.Lib.SortedMap

/-!
# Writes, one after the other

A list of keys and values that is written to a partial function. What is read
afterwards is the last value written to a key, or what was there before.

* **`writeAll_of_notMem`**, **`writeAll_eq_of_mem`** — the keys that are not written,
  and those that are;
* **`newKeys_cons`** — the keys that a list adds, one write at a time;
* **`getElem?_insertAll_toList`** — writing the entries of a map.
-/

namespace Lib

section Functions

variable {K V : Type} [DecidableEq K] {f g : K → Option V} {l l' : List (K × V)} {k : K}

def writeAll (f : K → Option V) (l : List (K × V)) : K → Option V :=
  l.foldl (fun f p => Function.update f p.1 (some p.2)) f

/-- How many keys of the list have no value. -/
def newKeys (f : K → Option V) (l : List (K × V)) : Nat :=
  ((l.map Prod.fst).toFinset.filter fun k => (f k).isNone).card

theorem writeAll_cons (f : K → Option V) (p : K × V) (l : List (K × V)) :
    writeAll f (p :: l) = writeAll (Function.update f p.1 (some p.2)) l := rfl

theorem writeAll_append (f : K → Option V) (l l' : List (K × V)) :
    writeAll f (l ++ l') = writeAll (writeAll f l) l' := List.foldl_append

theorem writeAll_of_notMem (h : k ∉ l.map Prod.fst) : writeAll f l k = f k := by
  induction l generalizing f with
  | nil => rfl
  | cons p l ih =>
    obtain ⟨hne, hrest⟩ := not_or.mp (mt List.mem_cons.mpr h)
    rw [writeAll_cons, ih hrest, Function.update_of_ne hne]

/-- What has been written does not depend on what was there. -/
theorem writeAll_eq_of_mem (h : k ∈ l.map Prod.fst) :
    writeAll f l k = writeAll g l k ∧ (writeAll f l k).isSome = true := by
  induction l generalizing f g with
  | nil => exact absurd h List.not_mem_nil
  | cons p l ih =>
    rw [writeAll_cons, writeAll_cons]
    by_cases hrest : k ∈ l.map Prod.fst
    · exact ih hrest
    · have hk : k = p.1 := (List.mem_cons.mp h).resolve_right hrest
      rw [writeAll_of_notMem hrest, writeAll_of_notMem hrest, hk, Function.update_self,
        Function.update_self]
      exact ⟨rfl, rfl⟩

theorem newKeys_cons (f : K → Option V) (p : K × V) (l : List (K × V)) :
    newKeys f (p :: l) =
      (if (f p.1).isNone then 1 else 0) + newKeys (Function.update f p.1 (some p.2)) l := by
  have hset : (l.map Prod.fst).toFinset.filter
      (fun k => (Function.update f p.1 (some p.2) k).isNone) =
        ((l.map Prod.fst).toFinset.filter fun k => (f k).isNone).erase p.1 := by
    ext k
    rw [Finset.mem_filter, Finset.mem_erase, Finset.mem_filter]
    by_cases hk : k = p.1
    · rw [hk, Function.update_self]
      simp
    · rw [Function.update_of_ne hk]
      simp [hk]
  unfold newKeys
  rw [hset, List.map_cons, List.toFinset_cons, Finset.filter_insert]
  by_cases hnew : (f p.1).isNone = true
  · rw [if_pos hnew, if_pos hnew, Nat.add_comm, ← Finset.card_insert_of_notMem
      (Finset.notMem_erase p.1 _)]
    congr 1
    ext k
    by_cases hk : k = p.1
    · simp [hk]
    · simp [hk]
  · rw [if_neg hnew, if_neg hnew, Nat.zero_add, Finset.erase_eq_of_notMem]
    exact fun hmem => hnew (Finset.mem_filter.mp hmem).2

/-- The keys that are added are those that are read afterwards and were not before. -/
theorem newKeys_congr (h : ∀ k, writeAll f l k = writeAll f l' k) : newKeys f l = newKeys f l' := by
  have hmem (l : List (K × V)) (k : K) :
      k ∈ (l.map Prod.fst).toFinset.filter (fun k => (f k).isNone) ↔
        (f k).isNone = true ∧ (writeAll f l k).isSome = true := by
    rw [Finset.mem_filter, List.mem_toFinset, and_comm]
    refine and_congr_right fun hnone => ⟨fun hk => (writeAll_eq_of_mem (g := f) hk).2, fun hsome => ?_⟩
    by_contra hk
    rw [writeAll_of_notMem hk, Option.isNone_iff_eq_none.mp hnone] at hsome
    cases hsome
  unfold newKeys
  congr 1
  ext k
  rw [hmem, hmem, h k]

/-- Writes after others decide what is read at their keys. -/
theorem writeAll_append_congr_iff {T : List (K × V)} :
    (∀ k, writeAll f (l ++ T) k = writeAll f (l' ++ T) k) ↔
      ∀ k, k ∉ T.map Prod.fst → writeAll f l k = writeAll f l' k := by
  constructor
  · intro h k hk
    have hkey := h k
    rwa [writeAll_append, writeAll_append, writeAll_of_notMem hk, writeAll_of_notMem hk] at hkey
  · intro h k
    rw [writeAll_append, writeAll_append]
    by_cases hk : k ∈ T.map Prod.fst
    · exact (writeAll_eq_of_mem hk).1
    · rw [writeAll_of_notMem hk, writeAll_of_notMem hk, h k hk]

/-! ### Other names for the keys -/

section Renamed

variable {K' : Type} [DecidableEq K'] {φ : K → K'} {f' : K' → Option V}

theorem update_renamed (hφ : Function.Injective φ) (h : ∀ k, f' (φ k) = f k) (k₀ : K) (v : V)
    (k : K) :
    Function.update f' (φ k₀) (some v) (φ k) = Function.update f k₀ (some v) k := by
  by_cases hk : k = k₀
  · rw [hk, Function.update_self, Function.update_self]
  · rw [Function.update_of_ne hk, Function.update_of_ne fun heq => hk (hφ heq), h k]

theorem writeAll_renamed (hφ : Function.Injective φ) (h : ∀ k, f' (φ k) = f k)
    (l : List (K × V)) (k : K) :
    writeAll f' (l.map fun p => (φ p.1, p.2)) (φ k) = writeAll f l k := by
  induction l generalizing f f' with
  | nil => exact h k
  | cons p l ih => exact ih (update_renamed hφ h p.1 p.2)

theorem newKeys_renamed (hφ : Function.Injective φ) (h : ∀ k, f' (φ k) = f k)
    (l : List (K × V)) : newKeys f' (l.map fun p => (φ p.1, p.2)) = newKeys f l := by
  induction l generalizing f f' with
  | nil => rfl
  | cons p l ih =>
    rw [List.map_cons, newKeys_cons, newKeys_cons, h p.1]
    exact congrArg _ (ih (update_renamed hφ h p.1 p.2))

end Renamed

end Functions

/-! ## Consecutive keys -/

section Consecutive

variable {V : Type} {f : Int → Option V} {l : List V}

def consecutive (k : Int) : List V → List (Int × V)
  | [] => []
  | v :: l => (k, v) :: consecutive (k + 1) l

theorem map_consecutive {V' : Type} (g : V → V') (k : Int) (l : List V) :
    (consecutive k l).map (fun p => (p.1, g p.2)) = consecutive k (l.map g) := by
  induction l generalizing k with
  | nil => rfl
  | cons v l ih => exact congrArg _ (ih (k + 1))

theorem mem_keys_consecutive (k i : Int) (l : List V) :
    i ∈ (consecutive k l).map Prod.fst ↔ k ≤ i ∧ i < k + l.length := by
  induction l generalizing k with
  | nil =>
    show i ∈ [] ↔ k ≤ i ∧ i < k + 0
    simp only [List.not_mem_nil, false_iff]
    omega
  | cons v l ih =>
    rw [consecutive, List.map_cons, List.mem_cons, ih, List.length_cons]
    push_cast
    omega

theorem writeAll_consecutive (k : Int) (f : Int → Option V) (l : List V) (i : Nat)
    (hi : i < l.length) : writeAll f (consecutive k l) (k + i) = l[i]? := by
  induction l generalizing f k i with
  | nil => exact absurd hi (Nat.not_lt_zero i)
  | cons v l ih =>
    rw [consecutive, writeAll_cons]
    cases i with
    | zero =>
      rw [writeAll_of_notMem, List.getElem?_cons_zero]
      · simp
      · rw [mem_keys_consecutive]
        omega
    | succ i =>
      have hkey : k + (i + 1 : Nat) = k + 1 + i := by
        push_cast
        omega
      rw [hkey, ih _ _ _ (Nat.lt_of_succ_lt_succ hi), List.getElem?_cons_succ]

theorem writeAll_consecutive_of_notMem {k i : Int} (h : i < k ∨ k + l.length ≤ i) :
    writeAll f (consecutive k l) i = f i := by
  refine writeAll_of_notMem ?_
  rw [mem_keys_consecutive]
  omega

/-- Where it makes no difference whether a list is written from 0 or from 1 on. -/
def SameShifted (f : Int → Option V) (l : List V) (skip : List Int) : Prop :=
  ∀ i : Nat, (i : Int) ∉ skip → (f 0 :: l.map some)[i]? = (l.map some ++ [f l.length])[i]?

theorem writeAll_from_one (f : Int → Option V) (l : List V) (i : Nat) (hi : i ≤ l.length) :
    (f 0 :: l.map some)[i]? = some (writeAll f (consecutive 1 l) i) := by
  cases i with
  | zero =>
    rw [writeAll_consecutive_of_notMem (.inl (by decide))]
    rfl
  | succ i =>
    have hlt : i < l.length := hi
    have hkey : ((i + 1 : Nat) : Int) = 1 + i := by
      push_cast
      omega
    rw [List.getElem?_cons_succ, hkey, writeAll_consecutive 1 f l i hlt, List.getElem?_map,
      List.getElem?_eq_getElem hlt]
    rfl

theorem writeAll_from_zero (f : Int → Option V) (l : List V) (i : Nat) (hi : i ≤ l.length) :
    (l.map some ++ [f l.length])[i]? = some (writeAll f (consecutive 0 l) i) := by
  rcases Nat.lt_or_eq_of_le hi with hlt | rfl
  · have hvalue := writeAll_consecutive 0 f l i hlt
    rw [Int.zero_add] at hvalue
    rw [hvalue, List.getElem?_append_left (by rwa [List.length_map]), List.getElem?_map,
      List.getElem?_eq_getElem hlt]
    rfl
  · rw [writeAll_consecutive_of_notMem (.inr (by omega)), List.getElem?_append_right
      (by rw [List.length_map]), List.length_map, Nat.sub_self]
    rfl

theorem sameShifted_iff {T : List (Int × V)} :
    SameShifted f l (T.map Prod.fst) ↔
      ∀ i, writeAll f (consecutive 0 l ++ T) i = writeAll f (consecutive 1 l ++ T) i := by
  rw [writeAll_append_congr_iff]
  constructor
  · intro h i hi
    by_cases hrange : 0 ≤ i ∧ i ≤ l.length
    · obtain ⟨n, rfl⟩ := Int.eq_ofNat_of_zero_le hrange.1
      have hn : n ≤ l.length := Int.ofNat_le.mp hrange.2
      have hsame := h n hi
      rw [writeAll_from_one f l n hn, writeAll_from_zero f l n hn] at hsame
      exact (Option.some.inj hsame).symm
    · rw [writeAll_consecutive_of_notMem (by omega), writeAll_consecutive_of_notMem (by omega)]
  · intro h i hi
    by_cases hlen : i ≤ l.length
    · rw [writeAll_from_one f l i hlen, writeAll_from_zero f l i hlen, h i hi]
    · rw [List.getElem?_eq_none, List.getElem?_eq_none]
      · rw [List.length_append, List.length_map, List.length_singleton]
        omega
      · rw [List.length_cons, List.length_map]
        omega

end Consecutive

/-! ## Maps -/

section Maps

open Std

variable {K V : Type} {cmp : K → K → Ordering} [TransCmp cmp] [LawfulEqCmp cmp]

theorem insert_eq_update [DecidableEq K] (m : ExtTreeMap K V cmp) (k₀ : K) (v : V) :
    (fun k => (m.insert k₀ v)[k]?) = Function.update (fun k => m[k]?) k₀ (some v) := by
  funext k
  rw [ExtTreeMap.getElem?_insert]
  by_cases hk : k = k₀
  · rw [hk, Function.update_self, if_pos ReflCmp.compare_self]
  · rw [Function.update_of_ne hk, if_neg fun heq => hk (LawfulEqCmp.eq_of_compare heq).symm]

omit [LawfulEqCmp cmp] in
theorem getElem?_insertAll_or (m : ExtTreeMap K V cmp) (l : List (K × V)) (k : K) :
    (insertAll m l)[k]? = (insertAll (∅ : ExtTreeMap K V cmp) l)[k]?.or m[k]? := by
  induction l using List.reverseRecOn with
  | nil =>
    show m[k]? = (∅ : ExtTreeMap K V cmp)[k]?.or m[k]?
    rw [ExtTreeMap.getElem?_empty, Option.none_or]
  | append_singleton l e ih =>
    rw [insertAll_append, insertAll_append]
    show ((insertAll m l).insert e.1 e.2)[k]? = ((insertAll ∅ l).insert e.1 e.2)[k]?.or m[k]?
    rw [ExtTreeMap.getElem?_insert, ExtTreeMap.getElem?_insert, ih]
    split
    · rfl
    · rfl

theorem getElem?_insertAll_eq_writeAll [DecidableEq K] (m : ExtTreeMap K V cmp)
    (l : List (K × V)) (k : K) : (insertAll m l)[k]? = writeAll (fun k => m[k]?) l k := by
  induction l generalizing m with
  | nil => rfl
  | cons p l ih =>
    show (insertAll (m.insert p.1 p.2) l)[k]? = writeAll (Function.update _ p.1 (some p.2)) l k
    rw [ih, insert_eq_update]

theorem size_insertAll_writes [DecidableEq K] (m : ExtTreeMap K V cmp) (l : List (K × V)) :
    (insertAll m l).size = m.size + newKeys (fun k => m[k]?) l := by
  induction l generalizing m with
  | nil => rfl
  | cons p l ih =>
    show (insertAll (m.insert p.1 p.2) l).size = _
    rw [ih, insert_eq_update, newKeys_cons, ← Nat.add_assoc, ExtTreeMap.size_insert,
      ExtTreeMap.contains_eq_isSome_getElem?]
    congr 1
    cases m[p.1]? with
    | none => rfl
    | some v => rfl

theorem getElem?_insertAll_toList (m m' : ExtTreeMap K V cmp) (k : K) :
    (insertAll m m'.toList)[k]? = m'[k]?.or m[k]? := by
  have hsame : (insertAll (∅ : ExtTreeMap K V cmp) m'.toList)[k]? = m'[k]? := by
    refine Option.ext fun v => ?_
    have hkeys : IncreasingKeys cmp m'.toList := ExtTreeMap.ordered_keys_toList
    rw [getElem?_insertAll_iff hkeys, ExtTreeMap.mem_toList_iff_getElem?_eq_some]
  rw [getElem?_insertAll_or, hsame]

omit [LawfulEqCmp cmp] in
theorem getElem?_insertAll_map {V' : Type} (g : V → V') (l : List (K × V)) (k : K) :
    (insertAll (∅ : ExtTreeMap K V' cmp) (l.map fun p => (p.1, g p.2)))[k]? =
      (insertAll (∅ : ExtTreeMap K V cmp) l)[k]?.map g := by
  induction l using List.reverseRecOn with
  | nil => rfl
  | append_singleton l e ih =>
    rw [List.map_append, insertAll_append, insertAll_append]
    show ((insertAll ∅ (l.map _)).insert e.1 (g e.2))[k]? =
      ((insertAll ∅ l).insert e.1 e.2)[k]?.map g
    rw [ExtTreeMap.getElem?_insert, ExtTreeMap.getElem?_insert, ih]
    split
    · rfl
    · rfl

/-- A list may be written to a map of its own first. -/
theorem insertAll_toList_map {V' : Type} (g : V → V') (m : ExtTreeMap K V' cmp)
    (l : List (K × V)) :
    insertAll m ((insertAll (∅ : ExtTreeMap K V cmp) l).toList.map fun p => (p.1, g p.2)) =
      insertAll m (l.map fun p => (p.1, g p.2)) := by
  refine ExtTreeMap.ext_getElem? fun k => ?_
  rw [← ExtTreeMap.toList_map (f := fun _ => g), getElem?_insertAll_toList,
    getElem?_insertAll_or m, getElem?_insertAll_map, ExtTreeMap.getElem?_map]

end Maps

end Lib
