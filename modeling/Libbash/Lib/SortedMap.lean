import Mathlib.Algebra.Group.Nat.Defs
import Mathlib.Data.List.Sort
import Mathlib.Data.List.Induction
import Std.Data.ExtTreeMap

/-!
# Maps filled in the order of their keys

A map that is filled from a list whose keys strictly increase lists its entries
in the order of that list (`toList_insertAll`), so nothing is lost on the way
from a list to a map and back.
-/

namespace Lib

open Std

variable {K V : Type} {cmp : K → K → Ordering} [TransCmp cmp] [LawfulEqCmp cmp]

/-- Insert the entries of a list one after the other. -/
def insertAll (m : ExtTreeMap K V cmp) (l : List (K × V)) : ExtTreeMap K V cmp :=
  l.foldl (fun m e => m.insert e.1 e.2) m

/-- The keys of a list strictly increase. -/
def IncreasingKeys (cmp : K → K → Ordering) (l : List (K × V)) : Prop :=
  l.Pairwise fun a b => cmp a.1 b.1 = .lt

omit [LawfulEqCmp cmp] in
theorem insertAll_append (m : ExtTreeMap K V cmp) (l l' : List (K × V)) :
    insertAll m (l ++ l') = insertAll (insertAll m l) l' := List.foldl_append

theorem getElem?_insertAll_iff {l : List (K × V)} (h : IncreasingKeys cmp l) (k : K) (v : V) :
    (insertAll (∅ : ExtTreeMap K V cmp) l)[k]? = some v ↔ (k, v) ∈ l := by
  induction l using List.reverseRecOn with
  | nil => simp [insertAll]
  | append_singleton l e ih =>
    obtain ⟨hl, -, hlast⟩ := List.pairwise_append.mp h
    rw [insertAll_append]
    show ((insertAll ∅ l).insert e.1 e.2)[k]? = some v ↔ _
    rw [ExtTreeMap.getElem?_insert, List.mem_append, List.mem_singleton]
    by_cases hk : e.1 = k
    · -- the last entry is the only one with its key
      have hnot : (k, v) ∉ l := by
        intro hmem
        have hlt := hlast _ hmem e (List.mem_singleton_self e)
        rw [hk] at hlt
        exact absurd (ReflCmp.compare_self.symm.trans hlt) (by decide)
      rw [if_pos (hk ▸ ReflCmp.compare_self), Option.some.injEq]
      constructor
      · rintro rfl
        exact .inr (Prod.ext hk.symm rfl)
      · intro hmem
        rw [← hmem.resolve_left hnot]
    · rw [if_neg fun heq => hk (LawfulEqCmp.eq_of_compare heq), ih hl]
      constructor
      · exact .inl
      · intro hmem
        refine hmem.resolve_right fun heq => hk ?_
        rw [← heq]

omit [LawfulEqCmp cmp] in
theorem IncreasingKeys.nodup {l : List (K × V)} (h : IncreasingKeys cmp l) : l.Nodup := by
  refine List.Pairwise.imp (fun {a b} hlt heq => ?_) h
  rw [heq] at hlt
  exact absurd (ReflCmp.compare_self.symm.trans hlt) (by decide)

/-- A map lists its entries in the order in which they were inserted, when that
is the order of the keys. -/
theorem toList_insertAll {l : List (K × V)} (h : IncreasingKeys cmp l) :
    (insertAll (∅ : ExtTreeMap K V cmp) l).toList = l := by
  have hordered : IncreasingKeys cmp (insertAll (∅ : ExtTreeMap K V cmp) l).toList :=
    ExtTreeMap.ordered_keys_toList
  have hirrefl : ∀ a b : K × V, cmp a.1 b.1 = .lt → cmp b.1 a.1 = .lt → a = b :=
    fun a b hab hba => absurd hba (OrientedCmp.not_lt_of_lt hab)
  unfold IncreasingKeys at hordered h
  refine List.Perm.eq_of_pairwise (fun a b _ _ => hirrefl a b) hordered h ?_
  · have hn : ∀ l : List (K × V), IncreasingKeys cmp l → l.Nodup := fun _ => IncreasingKeys.nodup
    rw [List.perm_ext_iff_of_nodup (hn _ hordered) (hn _ h)]
    rintro ⟨k, v⟩
    rw [ExtTreeMap.mem_toList_iff_getElem?_eq_some, getElem?_insertAll_iff h]

theorem size_insertAll {l : List (K × V)} (h : IncreasingKeys cmp l) :
    (insertAll (∅ : ExtTreeMap K V cmp) l).size = l.length := by
  rw [← ExtTreeMap.length_toList, toList_insertAll h]

/-! ## Indices of fixed width -/

/-- The elements of a list with their indices, counted from `k`. -/
def indexFrom (k : Nat) (l : List V) : List (UInt32 × V) :=
  (l.zipIdx k).map fun p => (.ofNat p.2, p.1)

theorem indexFrom_cons (k : Nat) (x : V) (l : List V) :
    indexFrom k (x :: l) = (.ofNat k, x) :: indexFrom (k + 1) l := rfl

theorem length_indexFrom (k : Nat) (l : List V) : (indexFrom k l).length = l.length := by
  rw [indexFrom, List.length_map, List.length_zipIdx]

theorem map_snd_indexFrom (k : Nat) (l : List V) : (indexFrom k l).map Prod.snd = l := by
  induction l generalizing k with
  | nil => rfl
  | cons x l ih => rw [indexFrom_cons, List.map_cons, ih]

theorem getElem?_indexFrom (k i : Nat) (l : List V) :
    (indexFrom k l)[i]? = l[i]?.map fun x => (.ofNat (k + i), x) := by
  induction l generalizing k i with
  | nil => rfl
  | cons x l ih =>
    cases i with
    | zero => rfl
    | succ i =>
      rw [indexFrom_cons, List.getElem?_cons_succ, List.getElem?_cons_succ, ih]
      rw [Nat.add_right_comm, Nat.add_assoc]

theorem lt_of_mem_indexFrom {k n : Nat} {l : List V} {e : UInt32 × V} (hk : n < k)
    (hlen : k + l.length ≤ 2 ^ 32) (h : e ∈ indexFrom k l) : n < e.1.toNat := by
  obtain ⟨i, hi⟩ := List.mem_iff_getElem?.mp h
  rw [getElem?_indexFrom] at hi
  obtain ⟨x, hx, rfl⟩ := Option.map_eq_some_iff.mp hi
  have hi := (List.getElem?_eq_some_iff.mp hx).1
  show n < (UInt32.ofNat (k + i)).toNat
  rw [UInt32.toNat_ofNat_of_lt' (show k + i < 2 ^ 32 by omega)]
  omega

theorem increasingKeys_indexFrom {k : Nat} {l : List V} (h : k + l.length ≤ 2 ^ 32) :
    IncreasingKeys compare (indexFrom k l) := by
  induction l generalizing k with
  | nil => exact List.Pairwise.nil
  | cons x l ih =>
    rw [List.length_cons] at h
    refine List.pairwise_cons.mpr ⟨fun e he => ?_, ih (by omega)⟩
    have hlt := lt_of_mem_indexFrom (Nat.lt_succ_self k) (by omega) he
    rw [compare_eq_lt, UInt32.lt_iff_toNat_lt]
    show (UInt32.ofNat k).toNat < _
    rwa [UInt32.toNat_ofNat_of_lt' (show k < 2 ^ 32 by omega)]

end Lib
