import Libbash.Arith.Rules

/-!
# The operators of arithmetic

Each operator with the node that stands for it and with what it means: an
operation on integers whose result is reduced to 64 bits. `apply` is `none`
where the operation has no defined value. The theorems `*_apply` say that the
actions of the rule `arithmetic` compute these meanings.
-/

namespace Libbash.Arith

open Lib Lib.Comp

inductive UnaryOp where
  | plusSign | minusSign | bang | tilde
  deriving DecidableEq

inductive BinaryOp where
  | pipe | caret | amp | leq | geq | lessThan | greaterThan | notEquals | equalsTo
  | lshift | rshift | plus | minus | times | slash | pct | exp
  deriving DecidableEq

inductive LogicOp where
  | logicOr | logicAnd
  deriving DecidableEq

/-- The compound assignments. -/
inductive AssignOp where
  | mulAssign | divideAssign | modAssign | plusAssign | minusAssign
  | lshiftAssign | rshiftAssign | andAssign | xorAssign | orAssign
  deriving DecidableEq

/-! ## Unary operators -/

namespace UnaryOp

def type : UnaryOp → TokenType
  | plusSign => .plusSign
  | minusSign => .minusSign
  | bang => .bang
  | tilde => .tilde

/-- The meaning of an operator. -/
def apply (op : UnaryOp) (l : Int64) : Int64 :=
  match op with
  | plusSign => l
  | minusSign => .ofInt (-l.toInt)
  | bang => ofBool (l.toInt == 0)
  | tilde => .ofInt (-l.toInt - 1)

/-- The action of `arithmetic` for an operator. -/
def act : UnaryOp → Int64 → Int64
  | plusSign => fun l => l
  | minusSign => fun l => -l
  | bang => fun l => ofBool (l == 0)
  | tilde => fun l => ~~~l

end UnaryOp

/-- Integers are equal as `long` values exactly when they are equal. -/
theorem toInt_beq (l r : Int64) : (l.toInt == r.toInt) = (l == r) := by
  rw [Bool.eq_iff_iff, beq_iff_eq, beq_iff_eq, Int64.toInt_inj]

theorem UnaryOp.act_eq_apply (op : UnaryOp) (l : Int64) : op.act l = op.apply l := by
  cases op with
  | plusSign => rfl
  | minusSign => simp only [act, apply, Int64.ofInt_neg, Int64.ofInt_toInt]
  | bang =>
    show ofBool (l == 0) = ofBool (l.toInt == (0 : Int64).toInt)
    rw [toInt_beq]
  | tilde =>
    simp only [act, apply, Int64.ofInt_sub, Int64.ofInt_neg, Int64.ofInt_toInt,
      Int64.not_eq_neg_add]
    rfl

/-! ## Shifts -/

/-- A count inside the word is the count that the shift uses. -/
theorem toNat_smod {r : Int64} (h0 : 0 ≤ r.toInt) (h1 : r.toInt < 64) :
    (r.toBitVec.smod 64#64).toNat = r.toInt.toNat := by
  have h : (r.toBitVec.smod 64#64).toInt = r.toInt := by
    rw [BitVec.toInt_smod]
    show r.toInt.fmod 64 = r.toInt
    rw [Int.fmod_eq_emod_of_nonneg _ (by decide)]
    exact Int.emod_eq_of_lt h0 h1
  have hnat := BitVec.toInt_eq_toNat_cond (r.toBitVec.smod 64#64)
  rw [h] at hnat
  have := (r.toBitVec.smod 64#64).isLt
  split at hnat <;> omega

theorem ofInt_two_pow (n : Nat) : BitVec.ofInt 64 (2 ^ n) = BitVec.twoPow 64 n := by
  have h : (2 : Int) ^ n = ((2 ^ n : Nat) : Int) := by push_cast; rfl
  rw [h, BitVec.ofInt_natCast]
  apply BitVec.eq_of_toNat_eq
  rw [BitVec.toNat_ofNat, BitVec.toNat_twoPow]

theorem shiftLeft_eq {l r : Int64} (h0 : 0 ≤ r.toInt) (h1 : r.toInt < 64) :
    l <<< r = Int64.ofInt (l.toInt * 2 ^ r.toInt.toNat) := by
  rw [← Int64.toBitVec_inj, Int64.toBitVec_ofInt, Int64.toBitVec_shiftLeft, BitVec.ofInt_mul,
    ofInt_two_pow]
  show l.toBitVec <<< (r.toBitVec.smod 64#64) = BitVec.ofInt 64 l.toBitVec.toInt * _
  rw [BitVec.shiftLeft_eq', toNat_smod h0 h1, BitVec.shiftLeft_eq_mul_twoPow, BitVec.ofInt_toInt]

theorem shiftRight_eq {l r : Int64} (h0 : 0 ≤ r.toInt) (h1 : r.toInt < 64) :
    l >>> r = Int64.ofInt (l.toInt / 2 ^ r.toInt.toNat) := by
  rw [← Int64.toBitVec_inj, Int64.toBitVec_ofInt, Int64.toBitVec_shiftRight]
  show l.toBitVec.sshiftRight' (r.toBitVec.smod 64#64) = _
  rw [BitVec.sshiftRight_eq', toNat_smod h0 h1]
  have h := BitVec.toInt_sshiftRight (x := l.toBitVec) (n := r.toInt.toNat)
  rw [Int.shiftRight_eq_div_pow] at h
  rw [← BitVec.ofInt_toInt (x := l.toBitVec.sshiftRight _), h]
  push_cast
  rfl

/-! ## Binary operators -/

namespace BinaryOp

def type : BinaryOp → TokenType
  | pipe => .pipe
  | caret => .caret
  | amp => .amp
  | leq => .leq
  | geq => .geq
  | lessThan => .lessThan
  | greaterThan => .greaterThan
  | notEquals => .notEquals
  | equalsTo => .equalsTo
  | lshift => .lshift
  | rshift => .rshift
  | plus => .plus
  | minus => .minus
  | times => .times
  | slash => .slash
  | pct => .pct
  | exp => .exp

/-- The meaning of an operator. The three bitwise ones act on the 64 bits of
two's complement. -/
def apply (op : BinaryOp) (l r : Int64) : Option Int64 :=
  match op with
  | pipe => some (l ||| r)
  | caret => some (l ^^^ r)
  | amp => some (l &&& r)
  | leq => some (ofBool (l.toInt ≤ r.toInt))
  | geq => some (ofBool (r.toInt ≤ l.toInt))
  | lessThan => some (ofBool (l.toInt < r.toInt))
  | greaterThan => some (ofBool (r.toInt < l.toInt))
  | notEquals => some (ofBool (l.toInt != r.toInt))
  | equalsTo => some (ofBool (l.toInt == r.toInt))
  | lshift =>
    if 0 ≤ r.toInt ∧ r.toInt < 64 then some (.ofInt (l.toInt * 2 ^ r.toInt.toNat)) else none
  | rshift =>
    if 0 ≤ r.toInt ∧ r.toInt < 64 then some (.ofInt (l.toInt / 2 ^ r.toInt.toNat)) else none
  | plus => some (.ofInt (l.toInt + r.toInt))
  | minus => some (.ofInt (l.toInt - r.toInt))
  | times => some (.ofInt (l.toInt * r.toInt))
  | slash =>
    if r = 0 ∨ (l = Int64.minValue ∧ r = -1) then none else some (.ofInt (l.toInt.tdiv r.toInt))
  | pct =>
    if r = 0 ∨ (l = Int64.minValue ∧ r = -1) then none else some (.ofInt (l.toInt.tmod r.toInt))
  | exp => if 0 ≤ r.toInt then some (.ofInt (l.toInt ^ r.toInt.toNat)) else none

/-- The action of `arithmetic` for an operator. -/
def act : BinaryOp → Int64 → Int64 → Comp Exn Store Int64
  | pipe => fun l r => pure (l ||| r)
  | caret => fun l r => pure (l ^^^ r)
  | amp => fun l r => pure (l &&& r)
  | leq => fun l r => pure (ofBool (l ≤ r))
  | geq => fun l r => pure (ofBool (l ≥ r))
  | lessThan => fun l r => pure (ofBool (l < r))
  | greaterThan => fun l r => pure (ofBool (l > r))
  | notEquals => fun l r => pure (ofBool (l != r))
  | equalsTo => fun l r => pure (ofBool (l == r))
  | lshift => shiftLeft
  | rshift => shiftRight
  | plus => fun l r => pure (l + r)
  | minus => fun l r => pure (l - r)
  | times => fun l r => pure (l * r)
  | slash => divide
  | pct => modulo
  | exp => power

end BinaryOp

theorem inWord_iff (r : Int64) : (0 ≤ r.toInt ∧ r.toInt < 64) ↔ ¬ (r < 0 ∨ 64 ≤ r) := by
  rw [Int64.lt_iff_toInt_lt, Int64.le_iff_toInt_le]
  show _ ↔ ¬ (r.toInt < 0 ∨ 64 ≤ r.toInt)
  omega

/-- The loop of `EXP` multiplies as often as the exponent says. -/
theorem repeat_mul (l : Int64) (n : Nat) :
    Nat.repeat (fun v => v * l) n 1 = Int64.ofInt (l.toInt ^ n) := by
  induction n with
  | zero =>
    rw [Nat.repeat, Int.pow_zero]
    rfl
  | succ n ih =>
    rw [Nat.repeat, ih, Int.pow_succ, Int64.ofInt_mul, Int64.ofInt_toInt]

theorem divide_eq {l r : Int64} (h : ¬ (r = 0 ∨ (l = Int64.minValue ∧ r = -1))) :
    l / r = Int64.ofInt (l.toInt.tdiv r.toInt) := by
  have hdiv : (l / r).toInt = l.toInt.tdiv r.toInt := by
    by_cases hl : l = Int64.minValue
    · exact Int64.toInt_div_of_ne_right l r fun hr => h (.inr ⟨hl, hr⟩)
    · exact Int64.toInt_div_of_ne_left l r hl
  rw [← hdiv, Int64.ofInt_toInt]

theorem modulo_eq (l r : Int64) : l % r = Int64.ofInt (l.toInt.tmod r.toInt) := by
  rw [← Int64.toInt_mod, Int64.ofInt_toInt]

/-- Where an operator has a meaning, its action computes it. -/
theorem BinaryOp.act_of_apply {op : BinaryOp} {l r v : Int64} (h : op.apply l r = some v) :
    op.act l r = pure v := by
  cases op with
  | pipe | caret | amp => cases h; rfl
  | leq =>
    cases h
    simp only [act, Int64.le_iff_toInt_le]
  | geq =>
    cases h
    simp only [act, ge_iff_le, Int64.le_iff_toInt_le]
  | lessThan =>
    cases h
    simp only [act, Int64.lt_iff_toInt_lt]
  | greaterThan =>
    cases h
    simp only [act, gt_iff_lt, Int64.lt_iff_toInt_lt]
  | notEquals =>
    cases h
    simp only [act, bne, toInt_beq]
  | equalsTo =>
    cases h
    rw [act, toInt_beq]
  | lshift =>
    simp only [apply, Option.ite_none_right_eq_some, Option.some.injEq] at h
    obtain ⟨hr, rfl⟩ := h
    rw [act, shiftLeft, if_neg ((inWord_iff r).mp hr), shiftLeft_eq hr.1 hr.2]
  | rshift =>
    simp only [apply, Option.ite_none_right_eq_some, Option.some.injEq] at h
    obtain ⟨hr, rfl⟩ := h
    rw [act, shiftRight, if_neg ((inWord_iff r).mp hr), shiftRight_eq hr.1 hr.2]
  | plus =>
    cases h
    simp only [act, Int64.ofInt_add, Int64.ofInt_toInt]
  | minus =>
    cases h
    simp only [act, Int64.ofInt_sub, Int64.ofInt_toInt]
  | times =>
    cases h
    simp only [act, Int64.ofInt_mul, Int64.ofInt_toInt]
  | slash =>
    simp only [apply, Option.ite_none_left_eq_some, Option.some.injEq] at h
    obtain ⟨hr, rfl⟩ := h
    rw [act, divide, if_neg hr, divide_eq hr]
  | pct =>
    simp only [apply, Option.ite_none_left_eq_some, Option.some.injEq] at h
    obtain ⟨hr, rfl⟩ := h
    rw [act, modulo, if_neg hr, modulo_eq]
  | exp =>
    simp only [apply, Option.ite_none_right_eq_some, Option.some.injEq] at h
    obtain ⟨hr, rfl⟩ := h
    have hneg : ¬ r < 0 := by
      rw [Int64.lt_iff_toInt_lt]
      exact Int.not_lt.mpr hr
    rw [act, power, if_neg hneg, repeat_mul]

/-! ## Short-circuit operators -/

namespace LogicOp

def type : LogicOp → TokenType
  | logicOr => .logicOr
  | logicAnd => .logicAnd

/-- Whether the left value settles the result. -/
def short : LogicOp → Int64 → Bool
  | logicOr => (· != 0)
  | logicAnd => (· == 0)

/-- The result that the left value settles. -/
def shortValue : LogicOp → Int64
  | logicOr => 1
  | logicAnd => 0

end LogicOp

/-! ## Compound assignments -/

namespace AssignOp

def type : AssignOp → TokenType
  | mulAssign => .mulAssign
  | divideAssign => .divideAssign
  | modAssign => .modAssign
  | plusAssign => .plusAssign
  | minusAssign => .minusAssign
  | lshiftAssign => .lshiftAssign
  | rshiftAssign => .rshiftAssign
  | andAssign => .andAssign
  | xorAssign => .xorAssign
  | orAssign => .orAssign

/-- The operator that a compound assignment applies. -/
def binary : AssignOp → BinaryOp
  | mulAssign => .times
  | divideAssign => .slash
  | modAssign => .pct
  | plusAssign => .plus
  | minusAssign => .minus
  | lshiftAssign => .lshift
  | rshiftAssign => .rshift
  | andAssign => .amp
  | xorAssign => .caret
  | orAssign => .pipe

end AssignOp

end Libbash.Arith
