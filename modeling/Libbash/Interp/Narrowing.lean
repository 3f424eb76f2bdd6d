import Libbash.Lib.SortedMap
import Libbash.Interp.Substrings
import Libbash.Arith.Rules

/-!
# Numbers that are narrowed

A subscript and a length are evaluated as a `long` and passed on as an `int`:
`set_index` and `do_substring_expansion` see the low 32 bits of the number, with
their sign. `neverTruncated_iff` says for which numbers that is the number itself,
or an error that does not call a number negative which is not.
-/

namespace Libbash

open Lib Lib.Comp Lib.Program

/-! ## The low 32 bits -/

/-- The number is below the end of `int`, and where it is negative so are its low
32 bits. -/
def FitsInt (v : Int64) : Prop := v.toInt < 2 ^ 31 ∧ (v.toInt < 0 → v.toInt32 < 0)

section Narrowed

variable {v : Int64}

theorem toInt32_neg_iff (v : Int64) : v.toInt32 < 0 ↔ v.toInt.bmod (2 ^ 32) < 0 := by
  rw [Int32.lt_iff_toInt_lt, Int64.toInt_toInt32]
  exact Iff.rfl

/-- A number that fits and is not negative is kept. -/
theorem FitsInt.toInt_toInt32 (h : FitsInt v) (hneg : ¬v.toInt32 < 0) :
    v.toInt32.toInt = v.toInt ∧ 0 ≤ v.toInt := by
  have hpos : 0 ≤ v.toInt := Int.not_lt.mp fun hlt => hneg (h.2 hlt)
  have hlt := h.1
  rw [Int64.toInt_toInt32, Int.bmod_def]
  omega

theorem FitsInt.neg (h : FitsInt v) (hneg : v.toInt32 < 0) : v.toInt < 0 := by
  have hlt := h.1
  rw [toInt32_neg_iff, Int.bmod_def] at hneg
  omega

theorem fitsInt_of_eq (hneg : ¬v.toInt32 < 0) (heq : v.toInt32.toInt = v.toInt) : FitsInt v := by
  have hlt := Int32.toInt_lt v.toInt32
  rw [Int32.lt_iff_toInt_lt, Int.not_lt, heq] at hneg
  rw [heq] at hlt
  exact ⟨hlt, fun hlow => absurd hneg (Int.not_le.mpr hlow)⟩

theorem fitsInt_of_neg (hneg : v.toInt32 < 0) (hlow : v.toInt < 0) : FitsInt v :=
  ⟨by omega, fun _ => hneg⟩

end Narrowed

/-! ## The operations -/

/-- The error says that a number is negative. -/
def ReportsNegative (e : Exn) : Prop :=
  (∃ rest, e = .error .illegalArgument ("Array index is less than 0: " ++ rest)) ∨
    e = .error .illegalArgument "length of substring expression should be greater or equal to zero"

/-- The operation uses the number, or raises an error that does not call it negative
when it is not. -/
def UsesExactly {α : Type} (v : Int64) (used : α → Int) : Except Exn α → Prop
  | .ok a => used a = v.toInt
  | .error e => (∃ what text, e = .error what text) ∧ (ReportsNegative e → v.toInt < 0)

/-- What `set_index` makes of a number. -/
def indexOutcome (name : String) (v : Int64) : Except Exn UInt32 :=
  if v.toInt32 < 0 then
    .error (.error .illegalArgument
      ("Array index is less than 0: " ++ name ++ "[" ++ toString v.toInt32.toInt ++ "]"))
  else .ok v.toInt32.toUInt32

/-- What `do_substring_expansion` makes of a length. -/
def lengthOutcome (v : Int64) : Except Exn Nat :=
  if v.toInt32 < 0 then
    .error (.error .illegalArgument
      "length of substring expression should be greater or equal to zero")
  else .ok v.toInt32.toInt.toNat

section Outcomes

variable {v : Int64}

theorem usesExactly_index_iff (name : String) (v : Int64) :
    UsesExactly v (fun i : UInt32 => i.toNat) (indexOutcome name v) ↔ FitsInt v := by
  unfold indexOutcome
  by_cases hneg : v.toInt32 < 0
  · rw [if_pos hneg]
    refine ⟨fun h => fitsInt_of_neg hneg (h.2 (.inl ⟨name ++ "[" ++ toString v.toInt32.toInt ++ "]", ?_⟩)),
      fun h => ⟨⟨_, _, rfl⟩, fun _ => h.neg hneg⟩⟩
    simp only [String.append_assoc]
  · have hpos : 0 ≤ v.toInt32.toInt := by
      rwa [Int32.lt_iff_toInt_lt, Int.not_lt] at hneg
    rw [if_neg hneg]
    show (v.toInt32.toUInt32.toNat : Int) = v.toInt ↔ _
    rw [toNat_toUInt32 hpos, Int.toNat_of_nonneg hpos]
    exact ⟨fitsInt_of_eq hneg, fun h => (h.toInt_toInt32 hneg).1⟩

theorem usesExactly_length_iff (v : Int64) :
    UsesExactly v (fun l : Nat => l) (lengthOutcome v) ↔ FitsInt v := by
  unfold lengthOutcome
  by_cases hneg : v.toInt32 < 0
  · rw [if_pos hneg]
    exact ⟨fun h => fitsInt_of_neg hneg (h.2 (.inr rfl)), fun h => ⟨⟨_, _, rfl⟩, fun _ => h.neg hneg⟩⟩
  · have hpos : 0 ≤ v.toInt32.toInt := by
      rwa [Int32.lt_iff_toInt_lt, Int.not_lt] at hneg
    rw [if_neg hneg]
    show (v.toInt32.toInt.toNat : Int) = v.toInt ↔ _
    rw [Int.toNat_of_nonneg hpos]
    exact ⟨fitsInt_of_eq hneg, fun h => (h.toInt_toInt32 hneg).1⟩

end Outcomes

section Run

variable (host : Host) (n d : Nat)

theorem run_setIndex (name : String) (v : Int64) (s : Interpreter) :
    runShell host n d (Shell.setIndex name v) s = some (indexOutcome name v, s) := by
  unfold Shell.setIndex indexOutcome
  by_cases hneg : v.toInt32 < 0
  · rw [if_pos hneg, if_pos hneg]
    rfl
  · rw [if_neg hneg, if_neg hneg]
    rfl

theorem run_checkLength (v : Int64) (s : Interpreter) :
    runShell host n d (Shell.checkLength v) s = some (lengthOutcome v, s) := by
  unfold Shell.checkLength lengthOutcome
  by_cases hneg : v.toInt32 < 0
  · rw [if_pos hneg, if_pos hneg]
    rfl
  · rw [if_neg hneg, if_neg hneg]
    rfl

theorem arith_setIndex (name : String) (v : Int64) (t : Store) :
    Arith.setIndex name v t = some (indexOutcome name v, t) := by
  unfold Arith.setIndex indexOutcome
  by_cases hneg : v.toInt32 < 0
  · rw [if_pos hneg, if_pos hneg]
    rfl
  · rw [if_neg hneg, if_neg hneg]
    rfl

end Run

/-! ## Where no number is truncated -/

/-- The operations that are given the number use it, or raise an error. -/
structure NeverTruncated (host : Host) (n d : Nat) (v : Int64) : Prop where
  /-- `x[e]`. -/
  subscript : ∀ (x : Identifier) (e : ArithExpr) (s s₁ : Interpreter),
    runShell host n d (Shell.arithmetics host e) s = some (.ok v, s₁) →
      ∃ r, runShell host n d (Shell.nameRule host (.element x e)) s = some (r, s₁) ∧
        UsesExactly v (fun p : String × UInt32 => p.2.toNat) r
  /-- `x=([e]=text)`. -/
  element : ∀ (x : Identifier) (e : ArithExpr) (text : String) (s s₁ : Interpreter),
    runShell host n d (Shell.arithmetics host e) s = some (.ok v, s₁) →
      ∃ r, runShell host n d
          (Shell.arrayDefHelper host x.text 0 ∅ [.at e (.literal text)]) s = some (r, s₁) ∧
        UsesExactly v
          (fun m : Std.ExtTreeMap UInt32 String => ((m.keys.head?.map UInt32.toNat).getD 0 : Nat)) r
  /-- `x[e]` in an arithmetic expression. -/
  operand : ∀ (x : String) (t : Store), ∃ r, Arith.setIndex x v t = some (r, t) ∧
    UsesExactly v (fun i : UInt32 => i.toNat) r
  /-- `${x:o:e}` and `${x[@]:o:e}`. -/
  length : ∀ s : Interpreter, ∃ r, runShell host n d (Shell.checkLength v) s = some (r, s) ∧
    UsesExactly v (fun l : Nat => l) r

section Rules

variable {host : Host} {n d : Nat} {v : Int64} {e : ArithExpr} {s s₁ : Interpreter}

theorem usesExactly_of_map {α β : Type} {used : α → Int} {used' : β → Int} {f : α → β}
    {r : Except Exn α} (h : UsesExactly v used r) (hf : ∀ a, used' (f a) = used a) :
    UsesExactly v used' (f <$> r) := by
  cases r with
  | ok a => exact (hf a).trans h
  | error e => exact h

theorem run_element (x : Identifier)
    (h : runShell host n d (Shell.arithmetics host e) s = some (.ok v, s₁)) :
    runShell host n d (Shell.nameRule host (.element x e)) s =
      some ((fun i => (x.text, i)) <$> indexOutcome x.text v, s₁) := by
  rw [Shell.nameRule, runShell_bind, bind_of_ok h, runShell_bind]
  cases houtcome : indexOutcome x.text v with
  | ok i => exact bind_of_ok (houtcome ▸ run_setIndex host n d x.text v s₁) _
  | error e => exact bind_of_error (houtcome ▸ run_setIndex host n d x.text v s₁) _

theorem run_listElement (x : Identifier) (text : String)
    (h : runShell host n d (Shell.arithmetics host e) s = some (.ok v, s₁)) :
    runShell host n d (Shell.arrayDefHelper host x.text 0 ∅ [.at e (.literal text)]) s =
      some ((fun i => (∅ : Std.ExtTreeMap UInt32 String).insert i text) <$>
        indexOutcome x.text v, s₁) := by
  rw [Shell.arrayDefHelper, runShell_bind, bind_of_ok h, runShell_bind]
  cases houtcome : indexOutcome x.text v with
  | ok i =>
    rw [bind_of_ok (houtcome ▸ run_setIndex host n d x.text v s₁), runShell_bind,
      bind_of_ok (run_literalWord text)]
    rfl
  | error e => exact bind_of_error (houtcome ▸ run_setIndex host n d x.text v s₁) _

theorem head_keys_insert (i : UInt32) (text : String) :
    ((∅ : Std.ExtTreeMap UInt32 String).insert i text).keys.head?.map UInt32.toNat =
      some i.toNat := by
  have hlist : (insertAll (∅ : Std.ExtTreeMap UInt32 String) [(i, text)]).toList = [(i, text)] :=
    toList_insertAll (List.pairwise_singleton _ _)
  have hkeys : ((∅ : Std.ExtTreeMap UInt32 String).insert i text).keys = [i] := by
    rw [← Std.ExtTreeMap.map_fst_toList_eq_keys]
    exact congrArg (List.map Prod.fst) hlist
  rw [hkeys]
  rfl

end Rules

theorem neverTruncated_of_fits (host : Host) (n d : Nat) {v : Int64} (h : FitsInt v) :
    NeverTruncated host n d v where
  subscript x e s s₁ he :=
    ⟨_, run_element x he, usesExactly_of_map ((usesExactly_index_iff x.text v).mpr h) fun _ => rfl⟩
  element x e text s s₁ he := by
    refine ⟨_, run_listElement x text he, ?_⟩
    refine usesExactly_of_map ((usesExactly_index_iff x.text v).mpr h) fun i => ?_
    rw [head_keys_insert]
    rfl
  operand x t := ⟨_, arith_setIndex x v t, (usesExactly_index_iff x v).mpr h⟩
  length s := ⟨_, run_checkLength host n d v s, (usesExactly_length_iff v).mpr h⟩

theorem fits_of_neverTruncated {host : Host} {n d : Nat} {v : Int64}
    (h : NeverTruncated host n d v) : FitsInt v := by
  obtain ⟨r, hrun, hr⟩ := h.operand "" ⟨∅, []⟩
  rw [arith_setIndex] at hrun
  cases hrun
  exact (usesExactly_index_iff "" v).mp hr

/-- For every `long`. Two numbers that are kept are different elements, and a length
that is kept and not less than the size cuts nothing off. -/
theorem neverTruncated_iff (host : Host) (n d : Nat) (v : Int64) :
    (NeverTruncated host n d v ↔ FitsInt v) ∧
      (FitsInt v → ∀ v', FitsInt v' → ∀ name i, indexOutcome name v = .ok i →
        indexOutcome name v' = .ok i → v' = v) ∧
      (FitsInt v → ∀ (name : String) (offset : Int) (index : UInt32) (s : Interpreter),
        s.Bound name index → ((s.valueOf name index).length : Int) ≤ v.toInt →
          runShell host n d
              (do
                let length ← Shell.checkLength v
                Shell.getSubstring name offset (some length) index) s =
            runShell host n d (Shell.getSubstring name offset none index) s) := by
  refine ⟨⟨fits_of_neverTruncated, neverTruncated_of_fits host n d⟩,
    fun h v' h' name i hi hi' => ?_, fun h name offset index s hbound hlong => ?_⟩
  · have huse := (usesExactly_index_iff name v).mpr h
    have huse' := (usesExactly_index_iff name v').mpr h'
    rw [hi] at huse
    rw [hi'] at huse'
    exact Int64.toInt_inj.mp (huse'.symm.trans huse)
  · have huse := (usesExactly_length_iff v).mpr h
    have hlength := run_checkLength host n d v s
    cases houtcome : lengthOutcome v with
    | error e =>
      rw [houtcome] at huse hlength
      unfold lengthOutcome at houtcome
      split_ifs at houtcome with hneg
      have hlow := h.neg hneg
      omega
    | ok l =>
      rw [houtcome] at huse hlength
      have hl : (l : Int) = v.toInt := huse
      rw [runShell_bind, bind_of_ok hlength, run_getSubstring hbound, run_getSubstring hbound,
        Option.getD_some, Option.getD_none, slice_full _ _ (by rw [String.length_toList]; omega),
        slice_full _ _ (le_of_eq String.length_toList)]

/-- `a[4294967296]` is `a[0]`, and `a[2147483648]` is called negative. -/
theorem not_neverTruncated_overflow :
    indexOutcome "a" 4294967296 = .ok 0 ∧
      (indexOutcome "a" 2147483648 = .error (.error .illegalArgument
        "Array index is less than 0: a[-2147483648]")) ∧
      ¬∀ (host : Host) (n d : Nat) (v : Int64), NeverTruncated host n d v := by
  refine ⟨by decide, by decide +kernel, fun h => ?_⟩
  have hfits := fits_of_neverTruncated (h (.ofTexts [] []) 0 0 4294967296)
  exact absurd hfits.1 (by decide)

end Libbash
