import Libbash.Lib.Slice
import Libbash.Interp.Checks

/-!
# Substring expansion

`get_real_offset`, `get_substring` and `do_substring_expansion` in the widths of
the source: an offset is a `long long`, a size an `unsigned`, a position a
`size_type`. No sum of them overflows, so for a value that `unsigned` can
measure the expansion is a slice of its characters.
-/

namespace Libbash

open Lib Lib.Comp Lib.Program

/-! ## The functions, with their widths -/

/-- `boost::numeric_cast<unsigned>` of a size. -/
def numericCastUnsigned (size : Nat) : Option UInt32 :=
  if size < 2 ^ 32 then some (.ofNat size) else none

/-- `std::string::substr` at a position that the string has. -/
def substr (value : String) (pos length : UInt64) : String :=
  String.ofList ((value.toList.drop pos.toNat).take length.toNat)

namespace Machine

/-- `get_real_offset`: the new offset, and whether it is in range. The `unsigned`
is converted to `long long` in the sum and in the comparison. -/
def getRealOffset (offset : Int64) (size : UInt32) : Int64 × Bool :=
  let offset := if 0 ≤ offset then offset else size.toUInt64.toInt64 + offset
  (offset, !(offset < 0 || size.toUInt64.toInt64 ≤ offset))

/-- `get_substring`. -/
def getSubstring (name : String) (offset : Int64) (length : UInt32) (index : UInt32) :
    Shell String := do
  let value ← Shell.resolveString name index
  match numericCastUnsigned value.length with
  | none => throw .badNumericCast
  | some size =>
    let (offset, legal) := getRealOffset offset size
    if !legal then pure "" else pure (substr value offset.toUInt64 length.toUInt64)

/-- `do_substring_expansion`, with a length or without. -/
def doSubstringExpansion (name : String) (offset : Int64) (length : Option Int32)
    (index : UInt32) : Shell String :=
  match length with
  | none => getSubstring name offset (.ofNat (2 ^ 32 - 1)) index
  | some length =>
    if length < 0 then
      throw (.error .illegalArgument
        "length of substring expression should be greater or equal to zero")
    else getSubstring name offset length.toUInt32 index

end Machine

/-! ## Nothing overflows -/

theorem numericCastUnsigned_eq {size : Nat} (h : size < 2 ^ 32) :
    ∃ cast, numericCastUnsigned size = some cast ∧ cast.toNat = size := by
  refine ⟨.ofNat size, if_pos h, ?_⟩
  rw [UInt32.toNat_ofNat_of_lt' (by rw [UInt32.size]; omega)]

theorem toInt_size (size : UInt32) : size.toUInt64.toInt64.toInt = size.toNat := by
  have hlt : size.toNat < 2 ^ 32 := size.toNat_lt
  show size.toUInt64.toBitVec.toInt = _
  rw [BitVec.toInt_eq_toNat_cond]
  have hnat : size.toUInt64.toBitVec.toNat = size.toNat := by simp
  rw [hnat, if_pos (by omega)]

/-- The sum of a size and a negative offset is a `long long`. -/
theorem realOffset_toInt (offset : Int64) (size : UInt32) :
    (Machine.getRealOffset offset size).1.toInt = position size.toNat offset.toInt := by
  have hlow : -2 ^ 63 ≤ offset.toInt := offset.le_toInt
  have hlt : size.toNat < 2 ^ 32 := size.toNat_lt
  unfold position
  show (if 0 ≤ offset then offset else size.toUInt64.toInt64 + offset).toInt = _
  have hsign : 0 ≤ offset ↔ 0 ≤ offset.toInt := Int64.le_iff_toInt_le
  by_cases h : 0 ≤ offset
  · rw [if_pos h, if_pos (hsign.mp h)]
  · have hneg := hsign.not.mp h
    rw [if_neg h, if_neg hneg, Int64.toInt_add, toInt_size, Int.bmod_def]
    omega

theorem realOffset_legal (offset : Int64) (size : UInt32) :
    (Machine.getRealOffset offset size).2 = true ↔ InList size.toNat offset.toInt := by
  unfold InList
  rw [← realOffset_toInt]
  generalize hreal : Machine.getRealOffset offset size = real
  have hlegal : real.2 = !(real.1 < 0 || size.toUInt64.toInt64 ≤ real.1) := by
    rw [← hreal]
    rfl
  rw [hlegal, Bool.not_eq_true', Bool.or_eq_false_iff, decide_eq_false_iff_not,
    decide_eq_false_iff_not, Int64.lt_iff_toInt_lt, Int64.le_iff_toInt_le, toInt_size]
  show ¬real.1.toInt < 0 ∧ _ ↔ _
  omega

theorem toNat_toUInt64 {x : Int64} (h : 0 ≤ x.toInt) : x.toUInt64.toNat = x.toInt.toNat := by
  show x.toBitVec.toNat = x.toBitVec.toInt.toNat
  have hx : 0 ≤ x.toBitVec.toInt := h
  have hlt := x.toBitVec.isLt
  rw [BitVec.toInt_eq_toNat_cond] at hx ⊢
  split_ifs at hx ⊢ <;> omega

theorem toNat_toUInt32 {x : Int32} (h : 0 ≤ x.toInt) : x.toUInt32.toNat = x.toInt.toNat := by
  show x.toBitVec.toNat = x.toBitVec.toInt.toNat
  have hx : 0 ≤ x.toBitVec.toInt := h
  have hlt := x.toBitVec.isLt
  rw [BitVec.toInt_eq_toNat_cond] at hx ⊢
  split_ifs at hx ⊢ <;> omega

/-! ## The expansion is a slice -/

/-- The value of a parameter, or the empty text. -/
def Interpreter.valueOf (s : Interpreter) (name : String) (index : UInt32) : String :=
  (s.store.parameter name index).getD ""

/-- The run ends with an `illegal_argument_exception`. -/
def RaisesIllegalArgument {α : Type} (out : Option (Except Exn α × Interpreter)) : Prop :=
  ∃ what t, out = some (.error (.error .illegalArgument what), t)

theorem substr_eq_slice {value : String} {offset : Int64} {size : UInt32} (length : UInt32)
    (hsize : size.toNat = value.length)
    (hlegal : (Machine.getRealOffset offset size).2 = true) :
    substr value (Machine.getRealOffset offset size).1.toUInt64 length.toUInt64 =
      String.ofList (slice value.toList offset.toInt length.toNat) := by
  have hin : InList value.toList.length offset.toInt := by
    rw [String.length_toList, ← hsize]
    exact (realOffset_legal offset size).mp hlegal
  have hreal := realOffset_toInt offset size
  have hpos : 0 ≤ (Machine.getRealOffset offset size).1.toInt := by
    rw [hreal, hsize, ← String.length_toList]
    exact hin.1
  unfold substr
  rw [slice_eq_take hin, toNat_toUInt64 hpos, hreal, hsize, String.length_toList,
    UInt32.toNat_toUInt64]

section Substring

variable {host : Host} {n d : Nat} {s : Interpreter} {name : String} {index : UInt32}

theorem run_machineSubstring (hset : s.Bound name index) (hsize : (s.valueOf name index).length < 2 ^ 32)
    (offset : Int64) (length : UInt32) :
    runShell host n d (Machine.getSubstring name offset length index) s =
      some (.ok (String.ofList (slice (s.valueOf name index).toList offset.toInt length.toNat)), s) := by
  obtain ⟨size, hcast, hnat⟩ := numericCastUnsigned_eq hsize
  have hresolve : runShell host n d (Shell.resolveString name index) s =
      some (.ok (s.valueOf name index), s) := run_resolveString_of_bound hset
  rw [Machine.getSubstring, runShell_bind, bind_of_ok hresolve]
  simp only [hcast]
  generalize hreal : Machine.getRealOffset offset size = real
  obtain ⟨real, legal⟩ := real
  cases legal with
  | false =>
    have hout : ¬InList (s.valueOf name index).toList.length offset.toInt := by
      rw [String.length_toList, ← hnat, ← realOffset_legal, hreal]
      exact Bool.false_ne_true
    rw [slice_eq_nil hout]
    rfl
  | true =>
    have hlegal : (Machine.getRealOffset offset size).2 = true := by rw [hreal]
    rw [← substr_eq_slice length hnat hlegal, hreal]
    rfl

/-- Without a length, `substr` is called with the greatest `unsigned`. -/
theorem run_substring_all (hset : s.Bound name index)
    (hsize : (s.valueOf name index).length < 2 ^ 32) (offset : Int64) :
    runShell host n d (Machine.doSubstringExpansion name offset none index) s =
      some (.ok (String.ofList (sliceFrom (s.valueOf name index).toList offset.toInt)), s) := by
  have hlength : (s.valueOf name index).toList.length ≤ (UInt32.ofNat (2 ^ 32 - 1)).toNat := by
    rw [String.length_toList]
    exact Nat.le_of_lt_succ hsize
  rw [← slice_full _ _ hlength]
  exact run_machineSubstring hset hsize offset _

theorem run_substring_length (hset : s.Bound name index)
    (hsize : (s.valueOf name index).length < 2 ^ 32) (offset : Int64) {length : Int32}
    (hlength : 0 ≤ length.toInt) :
    runShell host n d (Machine.doSubstringExpansion name offset (some length) index) s =
      some (.ok (String.ofList
        (slice (s.valueOf name index).toList offset.toInt length.toInt.toNat)), s) := by
  have hsign : ¬length < 0 := by
    rw [Int32.lt_iff_toInt_lt]
    exact Int.not_lt.mpr hlength
  rw [Machine.doSubstringExpansion, if_neg hsign, ← toNat_toUInt32 hlength]
  exact run_machineSubstring hset hsize offset _

theorem run_substring_negative (offset : Int64) {length : Int32} (hlength : length.toInt < 0) :
    RaisesIllegalArgument
      (runShell host n d (Machine.doSubstringExpansion name offset (some length) index) s) := by
  have hsign : length < 0 := Int32.lt_iff_toInt_lt.mpr hlength
  rw [Machine.doSubstringExpansion, if_pos hsign]
  exact ⟨_, s, rfl⟩

/-! ### The functions of the walker rules -/

theorem getRealOffset_eq (offset : Int) (size : Nat) :
    Shell.getRealOffset offset size =
      if InList size offset then some (position size offset).toNat else none := by
  show (if position size offset < 0 ∨ (size : Int) ≤ position size offset then none
    else some (position size offset).toNat) = _
  by_cases h : InList size offset
  · rw [if_pos h, if_neg]
    unfold InList at h
    omega
  · rw [if_neg h, if_pos]
    unfold InList at h
    omega

theorem run_getSubstring (hset : s.Bound name index) (offset : Int) (length : Option Nat) :
    runShell host n d (Shell.getSubstring name offset length index) s =
      some (.ok (String.ofList (slice (s.valueOf name index).toList offset
        (length.getD (s.valueOf name index).length))), s) := by
  have hresolve : runShell host n d (Shell.resolveString name index) s =
      some (.ok (s.valueOf name index), s) := run_resolveString_of_bound hset
  rw [Shell.getSubstring, runShell_bind, bind_of_ok hresolve]
  simp only [getRealOffset_eq]
  by_cases hin : InList (s.valueOf name index).toList.length offset
  · rw [slice_eq_take hin, String.length_toList] at *
    rw [if_pos hin]
    rfl
  · rw [slice_eq_nil hin]
    rw [String.length_toList] at hin
    rw [if_neg hin]
    rfl

/-- What `var_expansion` does is what the function does in its widths. -/
theorem run_substring_rule (hset : s.Bound name index)
    (hsize : (s.valueOf name index).length < 2 ^ 32) (offset length : Int64) :
    runShell host n d (Shell.getSubstring name offset.toInt none index) s =
        runShell host n d (Machine.doSubstringExpansion name offset none index) s ∧
      runShell host n d
          (do
            let length ← Shell.checkLength length
            Shell.getSubstring name offset.toInt (some length) index) s =
        runShell host n d (Machine.doSubstringExpansion name offset (some length.toInt32) index)
          s := by
  refine ⟨?_, ?_⟩
  · rw [run_getSubstring hset, run_substring_all hset hsize,
      ← slice_full _ _ (Nat.le_of_eq String.length_toList)]
    rfl
  · by_cases hneg : length.toInt32 < 0
    · rw [Shell.checkLength, if_pos hneg, Machine.doSubstringExpansion, if_pos hneg]
      rfl
    · have hpos : 0 ≤ length.toInt32.toInt :=
        Int.not_lt.mp fun h => hneg (Int32.lt_iff_toInt_lt.mpr h)
      rw [run_substring_length hset hsize offset hpos, Shell.checkLength, if_neg hneg]
      exact run_getSubstring hset offset.toInt _

end Substring

/-! ## Exactness -/

/-- Every offset and every length, for every value that `unsigned` can measure:
the expansion raises for the negative lengths only, and is a slice. The first
`k` characters and those from `k` on make the value, and the offset `-k` gives
its suffix of length `k`. -/
theorem substring_expansion_exact (host : Host) (n d : Nat) (s : Interpreter) (name : String)
    (index : UInt32) (hnounset : s.nounset = false)
    (hsize : (s.valueOf name index).length < 2 ^ 32) :
    let value := s.valueOf name index
    let expand (offset : Int64) (length : Option Int32) :=
      runShell host n d (Machine.doSubstringExpansion name offset length index) s
    (∀ offset length, RaisesIllegalArgument (expand offset (some length)) ↔ length.toInt < 0) ∧
      (∀ offset length, 0 ≤ length.toInt → expand offset (some length) =
        some (.ok (String.ofList (slice value.toList offset.toInt length.toInt.toNat)), s)) ∧
      (∀ offset, expand offset none =
        some (.ok (String.ofList (sliceFrom value.toList offset.toInt)), s)) ∧
      (∀ k : Int32, 0 ≤ k.toInt → ∃ first rest, expand 0 (some k) = some (.ok first, s) ∧
        expand k.toInt64 none = some (.ok rest, s) ∧ first ++ rest = value) ∧
      ∀ k : Nat, 1 ≤ k → k ≤ value.length → ∃ suffix,
        expand (.ofInt (-k)) none = some (.ok suffix, s) ∧
          suffix.toList <:+ value.toList ∧ suffix.length = k := by
  intro value expand
  have hset : s.Bound name index := fun hu => by rw [hnounset] at hu; cases hu
  have hall := @run_substring_all host n d s name index hset hsize
  have hlength := @run_substring_length host n d s name index hset hsize
  refine ⟨?_, fun offset length => hlength offset, hall, ?_, ?_⟩
  · intro offset length
    constructor
    · rintro ⟨what, t, hrun⟩
      by_contra hpos
      have hok := hrun.symm.trans (hlength offset (Int.not_lt.mp hpos))
      cases hok
    · exact run_substring_negative offset
  · intro k hk
    refine ⟨_, _, hlength 0 hk, hall k.toInt64, ?_⟩
    have hcast : (k.toInt64).toInt = (k.toInt.toNat : Int) := by
      rw [Int32.toInt_toInt64]
      omega
    rw [← String.ofList_append, hcast]
    exact (congrArg String.ofList (slice_append_sliceFrom value.toList _)).trans String.ofList_toList
  -- An offset of at most the length from the end is one of the type.
  · intro k hpos hle
    have hk : (Int64.ofInt (-k)).toInt = -k := by
      have hlt : value.length < 2 ^ 32 := hsize
      exact Int64.toInt_ofInt_of_le (by omega) (by omega)
    refine ⟨_, hall _, ?_, ?_⟩
    · rw [hk, sliceFrom_neg hpos (by rwa [String.length_toList]), String.toList_ofList]
      exact List.drop_suffix _ _
    · rw [hk, sliceFrom_neg hpos (by rwa [String.length_toList]), String.length_ofList,
        List.length_drop, String.length_toList]
      exact Nat.sub_sub_self hle

/-- `${IFS: -2:1}` in a new interpreter. -/
theorem substring_expansion_exact_ifs :
    runShell (.ofTexts [] []) 0 0 (Machine.doSubstringExpansion "IFS" (-2) (some 1) 0)
      (.initial []) = some (.ok "\t", .initial []) := by
  have hvalue : (Interpreter.initial []).valueOf "IFS" 0 = " \t\n" := by decide
  have hexact := substring_expansion_exact (.ofTexts [] []) 0 0 (.initial []) "IFS" 0 (by decide)
    (by rw [hvalue]; decide)
  have hslice := hexact.2.1 (-2) 1 (by decide)
  rw [hvalue] at hslice
  exact hslice

end Libbash
